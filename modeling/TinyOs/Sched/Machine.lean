import Mathlib.Data.Fintype.Basic
import TinyOs.Library.Machine

namespace TinyOs.Sched

open Option

open Function (update update_of_ne update_self)

abbrev nproc : Nat := 64

abbrev Slot := Fin nproc

inductive ProcState where
  | unused
  | used
  | sleeping
  | runnable
  | running
  | zombie
  deriving DecidableEq

inductive Chan where
  | proc (p : Slot)
  | other (n : Nat)
  deriving DecidableEq

inductive At where
  | code
  | scan (pid : Int)
  | toSleep (pid : Int)
  | creating (np : Slot)
  | exitCalled (kthread : Bool)
  deriving DecidableEq

def At.scan? : At → Option Int
  | .scan pid => some pid
  | _ => none

structure Proc where
  state : ProcState
  pid : Int
  parent : Option Slot
  chan : Option Chan
  wakeupTick : Nat
  kstack : Bool
  saved : Bool
  pos : At

def Proc.clear : Proc := ⟨.unused,0,none,none,0,false,false,.code⟩

inductive Pc where
  | sched
  | dispatching (p : Slot)
  | run (p : Slot)
  | exiting (p : Slot) (parent : Option Slot)
  | leave (p : Slot) (final : Bool)
  | back (p : Slot)
  deriving DecidableEq

def Pc.proc : Pc → Option Slot
  | .sched => none
  | .dispatching p | .run p | .exiting p _ | .leave p _ | .back p => some p

def Pc.holder : Pc → Option Slot
  | .sched | .back _ => none
  | .dispatching p | .run p | .exiting p _ | .leave p _ => some p

def Pc.running? : Pc → Option Slot
  | .run p => some p
  | _ => none

def Pc.leaving : Pc → Option Slot
  | .exiting p _ | .leave p _ => some p
  | _ => none

structure State (C : Type) where
  proc : Slot → Proc
  queue : List Slot
  cpu : C → Pc
  needResched : C → Bool
  nextpid : Int
  panicked : Bool
  readied : List Slot
  dispatched : List Slot

inductive Event where
  | freed (p : Slot)
  | handed (p : Slot)
  deriving DecidableEq

def initproc : Slot := 1

def kthreaddTask : Slot := 2

namespace State

variable {C : Type}

def setProc (s : State C) (p : Slot) (r : Proc) : State C :=
  { s with proc := update s.proc p r }

def enqueue (s : State C) (p : Slot) : State C :=
  if (s.proc p).state ≠ .runnable ∨ p ∈ s.queue then { s with panicked := true }
  else { s with queue := s.queue ++ [p], readied := s.readied ++ [p] }

def unlink (s : State C) (p : Slot) : State C := { s with queue := s.queue.erase p }

def wakeIf (cond : Proc → Bool) (s : State C) (p : Slot) : State C :=
  if cond (s.proc p) then
    (s.setProc p { s.proc p with state := .runnable, chan := none, wakeupTick := 0 }).enqueue p
  else s

def wakeAll (cond : Proc → Bool) (s : State C) : State C :=
  (List.finRange nproc).foldl (wakeIf cond) s

def wakeup (s : State C) (chan : Chan) : State C :=
  s.wakeAll fun r => r.state = .sleeping && r.chan = some chan

def wakeParent (s : State C) (parent : Option Slot) : State C :=
  match parent with
  | none => s
  | some q => s.wakeup (.proc q)

variable [DecidableEq C]

def setCpu (s : State C) (c : C) (pc : Pc) : State C :=
  { s with cpu := update s.cpu c pc }

def schedTick (s : State C) (c : C) (now : Nat) : State C :=
  let s := s.wakeAll fun r => r.state = .sleeping && r.wakeupTick ≠ 0 && r.wakeupTick ≤ now
  let current := (s.cpu c).proc.any fun p => (s.proc p).state = .running
  if current && !s.queue.isEmpty then
    { s with needResched := update s.needResched c true }
  else s

def signalSend (s : State C) (pid : Int) : State C :=
  match (List.finRange nproc).find? fun p =>
      (s.proc p).pid = pid && (s.proc p).state ≠ .unused && (s.proc p).state ≠ .zombie with
  | none => s
  | some p => s.wakeIf (fun r => r.state = .sleeping) p

def freeKstack (r : Proc) (p : Slot) : List Event := if r.kstack then [.freed p] else []

def sleepOn (s : State C) (c : C) (p : Slot) (chan : Option Chan) (tick : Nat) (pos : At) :
    State C :=
  (s.setProc p
    { s.proc p with state := .sleeping, chan := chan, wakeupTick := tick, pos := pos }).setCpu
    c (.leave p false)

def procAlloc (s : State C) (p : Slot) : State C × List Event :=
  match (List.finRange nproc).find? fun i => i ≠ 0 && (s.proc i).state = .unused with
  | none => (s,[])
  | some np =>
    if np ∈ s.queue then ({ s with panicked := true },[])
    else
      ({ (s.setProc np { Proc.clear with state := .used, pid := s.nextpid }).setProc p
          { s.proc p with pos := .creating np } with nextpid := s.nextpid + 1 },[.handed np])

def reparent (s : State C) (p : Slot) : State C :=
  { s with proc := fun i =>
      if (s.proc i).parent = some p ∧ (s.proc i).state ≠ .unused then
        { s.proc i with parent := some initproc }
      else s.proc i }

def zombieReapLocked (s : State C) (z : Slot) : State C × List Event := ((s.unlink z).setProc z
    { s.proc z with state := .unused, pid := 0, parent := none, kstack := false, saved := false },
    freeKstack (s.proc z) z)

def isKid (s : State C) (p i : Slot) : Bool :=
  (s.proc i).parent = some p && (s.proc i).state ≠ .unused

def isZombieKid (s : State C) (p : Slot) (pid : Int) (i : Slot) : Bool :=
  s.isKid p i && (s.proc i).state = .zombie && (pid = -1 || (s.proc i).pid = pid)

def waitScan (s : State C) (p : Slot) (pid : Int) : State C × List Event :=
  match (List.finRange nproc).find? (s.isZombieKid p pid) with
  | some z =>
    let r := s.zombieReapLocked z
    (r.1.setProc p { r.1.proc p with pos := .code },r.2)
  | none =>
    if (List.finRange nproc).any (s.isKid p) then
      (s.setProc p { s.proc p with pos := .toSleep pid },[])
    else (s.setProc p { s.proc p with pos := .code },[])

end State

inductive Op (C : Type) where
  | dispatch (c : C)
  | switchIn (c : C)
  | switchOut (c : C)
  | reap (c : C)
  | yield (c : C)
  | preempt (c : C)
  | sleep (c : C) (n : Nat)
  | sleepDeadline (c : C) (deadline : Nat)
  | wakeup (chan : Chan)
  | tick (c : C) (now : Nat)
  | signalSend (pid : Int)
  | alloc (c : C)
  | publish (c : C)
  | abandon (c : C)
  | exitCall (c : C) (kthread : Bool)
  | exitPublish (c : C)
  | exitWake (c : C)
  | kthreadExit (c : C)
  | wait (c : C) (pid : Int)
  | waitScan (c : C)
  | waitSleep (c : C)

namespace State

variable {C : Type} [DecidableEq C]

def schedulerSection (s : State C) (c : C) : State C :=
  match s.queue with
  | [] => s
  | p :: rest =>
    if (s.proc p).state ≠ .runnable ∨ (s.proc p).kstack = false then
      { s with queue := rest, panicked := true }
    else
      { (s.setProc p { s.proc p with state := .running }).setCpu c (.dispatching p) with
        queue := rest, dispatched := s.dispatched ++ [p] }

def yield (s : State C) (c : C) (p : Slot) : State C :=
  { ((s.setProc p { s.proc p with state := .runnable }).enqueue p).setCpu c (.leave p false) with
    needResched := update s.needResched c false }

def preemptCheck (s : State C) (c : C) (p : Slot) : State C :=
  if s.needResched c ∧ (s.proc p).state = .running then
    if s.queue = [] then { s with needResched := update s.needResched c false }
    else s.yield c p
  else s

def sched (s : State C) (c : C) (p : Slot) : State C :=
  if (s.proc p).state = .zombie ∨ (s.proc p).state = .unused then s.setCpu c (.back p)
  else (s.setProc p { s.proc p with saved := true }).setCpu c (.back p)

def kthreadReap (s : State C) (c : C) (p : Slot) : State C × List Event :=
  if (s.proc p).state = .unused then
    ((s.setProc p { s.proc p with kstack := false }).setCpu c .sched,freeKstack (s.proc p) p)
  else (s.setCpu c .sched,[])

def exitWithXstate (s : State C) (c : C) (p : Slot) : State C :=
  let s' := (s.reparent p).unlink p
  (s'.setProc p { s'.proc p with state := .zombie, saved := false, pos := .code }).setCpu c
    (.exiting p (s.proc p).parent)

def kthreadExit (s : State C) (c : C) (p : Slot) : State C :=
  (s.setProc p { s.proc p with state := .unused, pid := 0, pos := .code }).setCpu c (.leave p true)

def publish (s : State C) (p np : Slot) : State C :=
  let s' := (s.setProc np { s.proc np with
    state := .runnable, parent := some p, kstack := true, saved := true }).enqueue np
  s'.setProc p { s'.proc p with pos := .code }

def procFree (s : State C) (p np : Slot) : State C × List Event :=
  let s' := (s.unlink np).setProc np
    { s.proc np with state := .unused, pid := 0, parent := none, kstack := false, saved := false }
  (s'.setProc p { s'.proc p with pos := .code },freeKstack (s.proc np) np)

def stepRun (s : State C) (c : C) (f : Slot → Option (State C × List Event)) :
    Option (State C × List Event) :=
  match s.cpu c with
  | .run p => f p
  | _ => none

def step (s : State C) (op : Op C) : Option (State C × List Event) :=
  if s.panicked then none
  else
    match op with
    | .dispatch c => if s.cpu c = .sched then some (s.schedulerSection c,[]) else none
    | .switchIn c =>
      match s.cpu c with
      | .dispatching p =>
        some ((s.setProc p { s.proc p with saved := false }).setCpu c (.run p),[])
      | _ => none
    | .switchOut c =>
      match s.cpu c with
      | .leave p _ => some (s.sched c p,[])
      | _ => none
    | .reap c =>
      match s.cpu c with
      | .back p => some (s.kthreadReap c p)
      | _ => none
    | .yield c => s.stepRun c fun p => some (s.yield c p,[])
    | .preempt c => s.stepRun c fun p => some (s.preemptCheck c p,[])
    | .sleep c n => s.stepRun c fun p =>
      match (s.proc p).pos with
      | .scan _ | .toSleep _ => none
      | pos => some (s.sleepOn c p (some (.other n)) 0 pos,[])
    | .sleepDeadline c deadline => s.stepRun c fun p =>
      match (s.proc p).pos with
      | .scan _ | .toSleep _ => none
      | pos => some (s.sleepOn c p none deadline pos,[])
    | .wakeup chan => some (s.wakeup chan,[])
    | .tick c now => some (s.schedTick c now,[])
    | .signalSend pid => some (s.signalSend pid,[])
    | .alloc c => s.stepRun c fun p =>
      if (s.proc p).pos = .code then some (s.procAlloc p) else none
    | .publish c => s.stepRun c fun p =>
      match (s.proc p).pos with
      | .creating np => some (s.publish p np,[])
      | _ => none
    | .abandon c => s.stepRun c fun p =>
      match (s.proc p).pos with
      | .creating np => some (s.procFree p np)
      | _ => none
    | .exitCall c kthread => s.stepRun c fun p =>
      if (s.proc p).pos = .code ∧ p ≠ initproc ∧ (kthread = true → p ≠ kthreaddTask) then
        some (s.setProc p { s.proc p with pos := .exitCalled kthread },[])
      else none
    | .exitPublish c => s.stepRun c fun p =>
      if (s.proc p).pos = .exitCalled false then some (s.exitWithXstate c p,[]) else none
    | .exitWake c =>
      match s.cpu c with
      | .exiting p parent => some ((s.wakeParent parent).setCpu c (.leave p true),[])
      | _ => none
    | .kthreadExit c => s.stepRun c fun p =>
      if (s.proc p).pos = .exitCalled true then some (s.kthreadExit c p,[]) else none
    | .wait c pid => s.stepRun c fun p =>
      if (s.proc p).pos = .code then
        some (s.setProc p { s.proc p with pos := .scan pid },[])
      else none
    | .waitScan c => s.stepRun c fun p =>
      match (s.proc p).pos with
      | .scan pid => some (s.waitScan p pid)
      | _ => none
    | .waitSleep c => s.stepRun c fun p =>
      match (s.proc p).pos with
      | .toSleep pid => some (s.sleepOn c p (some (.proc p)) 0 (.scan pid),[])
      | _ => none

def bootProc : Slot → Proc
  | 0 => { Proc.clear with state := .used, parent := some 0 }
  | 1 => { Proc.clear with
      state := .runnable, pid := 1, parent := some 0, kstack := true, saved := true }
  | 2 => { Proc.clear with
      state := .runnable, pid := 2, parent := some 0, kstack := true, saved := true }
  | _ => Proc.clear

def boot : State C where
  proc := bootProc
  queue := [1,2]
  cpu := fun _ => .sched
  needResched := fun _ => false
  nextpid := 3
  panicked := false
  readied := [1,2]
  dispatched := []

end State

section

variable {C : Type} {s : State C} {r : State C × List Event}

@[simp] theorem setProc_self (s : State C) (p : Slot) (r : Proc) : (s.setProc p r).proc p = r :=
  update_self ..

theorem setProc_ne {p q : Slot} {r : Proc} (h : q ≠ p) : (s.setProc p r).proc q = s.proc q :=
  update_of_ne h ..

@[simp] theorem setCpu_self [DecidableEq C] (s : State C) (c : C) (pc : Pc) :
    (s.setCpu c pc).cpu c = pc :=
  update_self ..

theorem setCpu_ne [DecidableEq C] {c d : C} {pc : Pc} (h : d ≠ c) :
    (s.setCpu c pc).cpu d = s.cpu d :=
  update_of_ne h ..

theorem stepRun_eq {c : C} {f : Slot → Option (State C × List Event)}
    (h : s.stepRun c f = some r) : ∃ p, s.cpu c = .run p ∧ f p = some r := by
  unfold State.stepRun at h
  split at h
  · rename_i p hc
    exact ⟨p,hc,h⟩
  · cases h

variable [DecidableEq C]

inductive Move (s : State C) : Op C → State C × List Event → Prop where
  | dispatch {c} (hc : s.cpu c = .sched) : Move s (.dispatch c) (s.schedulerSection c,[])
  | switchIn {c p} (hc : s.cpu c = .dispatching p) :
      Move s (.switchIn c) ((s.setProc p { s.proc p with saved := false }).setCpu c (.run p),[])
  | switchOut {c p final} (hc : s.cpu c = .leave p final) : Move s (.switchOut c) (s.sched c p,[])
  | reap {c p} (hc : s.cpu c = .back p) : Move s (.reap c) (s.kthreadReap c p)
  | yield {c p} (hc : s.cpu c = .run p) : Move s (.yield c) (s.yield c p,[])
  | preempt {c p} (hc : s.cpu c = .run p) : Move s (.preempt c) (s.preemptCheck c p,[])
  | sleep {c p n} (hc : s.cpu c = .run p) (hscan : ∀ pid, (s.proc p).pos ≠ .scan pid)
      (hsleep : ∀ pid, (s.proc p).pos ≠ .toSleep pid) :
      Move s (.sleep c n) (s.sleepOn c p (some (.other n)) 0 (s.proc p).pos,[])
  | sleepDeadline {c p deadline} (hc : s.cpu c = .run p) (hscan : ∀ pid, (s.proc p).pos ≠ .scan pid)
      (hsleep : ∀ pid, (s.proc p).pos ≠ .toSleep pid) :
      Move s (.sleepDeadline c deadline) (s.sleepOn c p none deadline (s.proc p).pos,[])
  | wakeup {chan} : Move s (.wakeup chan) (s.wakeup chan,[])
  | tick {c now} : Move s (.tick c now) (s.schedTick c now,[])
  | signalSend {pid} : Move s (.signalSend pid) (s.signalSend pid,[])
  | alloc {c p} (hc : s.cpu c = .run p) (hpos : (s.proc p).pos = .code) :
      Move s (.alloc c) (s.procAlloc p)
  | publish {c p np} (hc : s.cpu c = .run p) (hpos : (s.proc p).pos = .creating np) :
      Move s (.publish c) (s.publish p np,[])
  | abandon {c p np} (hc : s.cpu c = .run p) (hpos : (s.proc p).pos = .creating np) :
      Move s (.abandon c) (s.procFree p np)
  | exitCall {c p kthread} (hc : s.cpu c = .run p) (hpos : (s.proc p).pos = .code)
      (hinit : p ≠ initproc) :
      Move s (.exitCall c kthread) (s.setProc p { s.proc p with pos := .exitCalled kthread },[])
  | exitPublish {c p} (hc : s.cpu c = .run p) (hpos : (s.proc p).pos = .exitCalled false) :
      Move s (.exitPublish c) (s.exitWithXstate c p,[])
  | exitWake {c p parent} (hc : s.cpu c = .exiting p parent) :
      Move s (.exitWake c) ((s.wakeParent parent).setCpu c (.leave p true),[])
  | kthreadExit {c p} (hc : s.cpu c = .run p) (hpos : (s.proc p).pos = .exitCalled true) :
      Move s (.kthreadExit c) (s.kthreadExit c p,[])
  | wait {c p pid} (hc : s.cpu c = .run p) (hpos : (s.proc p).pos = .code) :
      Move s (.wait c pid) (s.setProc p { s.proc p with pos := .scan pid },[])
  | waitScan {c p pid} (hc : s.cpu c = .run p) (hpos : (s.proc p).pos = .scan pid) :
      Move s (.waitScan c) (s.waitScan p pid)
  | waitSleep {c p pid} (hc : s.cpu c = .run p) (hpos : (s.proc p).pos = .toSleep pid) :
      Move s (.waitSleep c) (s.sleepOn c p (some (.proc p)) 0 (.scan pid),[])

theorem step_move {op : Op C} (hs : s.step op = some r) : Move s op r := by
  unfold State.step at hs
  split at hs
  · cases hs
  cases op with
  | dispatch c | switchIn c | switchOut c | reap c | exitWake c =>
    simp only at hs
    split at hs
    · rw [← some.inj hs]
      constructor
      assumption
    · cases hs
  | yield c | preempt c =>
    obtain ⟨p,hc,hs⟩ := stepRun_eq hs
    rw [← some.inj hs]
    constructor
    exact hc
  | sleep c n | sleepDeadline c deadline =>
    obtain ⟨p,hc,hs⟩ := stepRun_eq hs
    split at hs
    · cases hs
    · cases hs
    · rw [← some.inj hs]
      constructor <;> assumption
  | wakeup chan | tick c now | signalSend pid =>
    rw [← some.inj hs]
    constructor
  | exitCall c kthread =>
    obtain ⟨p,hc,hs⟩ := stepRun_eq hs
    split at hs
    · rename_i hguard
      rw [← some.inj hs]
      exact .exitCall hc hguard.1 hguard.2.1
    · cases hs
  | alloc c | publish c | abandon c | exitPublish c | kthreadExit c | wait c pid | waitScan c
  | waitSleep c =>
    obtain ⟨p,hc,hs⟩ := stepRun_eq hs
    split at hs
    · rw [← some.inj hs]
      constructor <;> assumption
    · cases hs

end

end TinyOs.Sched
