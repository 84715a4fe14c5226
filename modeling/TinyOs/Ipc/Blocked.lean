import TinyOs.Ipc.Signal
import TinyOs.Sched.Machine

namespace TinyOs.Blocked

open Signal

open Sched (ProcState)

def pipeSize : Nat := 512

inductive Flock where
  | un
  | sh
  | ex
  deriving DecidableEq

structure Child where
  pid : Int
  zombie : Bool

structure World where
  nread : Word
  nwrite : Word
  readers : Nat
  writers : Nat
  children : List Child
  flocks : List Flock
  cons : List UInt8
  canon : Bool
  ticks : Nat
  word : Word

inductive Call where
  | pipeRead (n : Nat)
  | pipeWrite (n i : Nat)
  | waitChild (pid : Int)
  | fileflock (cmd : Flock)
  | consoleRead (n i : Nat)
  | nanosleep (deadline : Nat)
  | futexWait (val : Word)
  | blockIo (more : Nat)
  deriving DecidableEq

def Call.start : Call → Call
  | .pipeWrite n _ => .pipeWrite n 0
  | .consoleRead n _ => .consoleRead n 0
  | c => c

inductive Verdict where
  | sleep (c : Call)
  | request (more : Nat)
  | ret (r : Int)
  | sigpipe (r : Int)

def pipeRead (w : World) (killed : Bool) (n : Nat) : World × Verdict :=
  if w.nread = w.nwrite ∧ w.writers ≠ 0 then
    (w,if killed then .ret (-1) else .sleep (.pipeRead n))
  else
    let k := min n (w.nwrite - w.nread).toNat
    ({ w with nread := w.nread + BitVec.ofNat 32 k },.ret k)

def pipeFull (w : World) (killed : Bool) (r : Int) (c : Call) : Verdict :=
  if w.readers = 0 then .sigpipe r else if killed then .ret r else .sleep c

def pipeWriteLoop (w : World) (killed : Bool) (n i : Nat) : World × Verdict :=
  if 0 < n ∧ n ≤ pipeSize then
    if (w.nread + BitVec.ofNat 32 pipeSize).toNat < (w.nwrite + BitVec.ofNat 32 n).toNat then
      (w,pipeFull w killed (-1) (.pipeWrite n i))
    else ({ w with nwrite := w.nwrite + BitVec.ofNat 32 n },.ret n)
  else
    let k := min (n - i) (w.nread + BitVec.ofNat 32 pipeSize - w.nwrite).toNat
    let w := { w with nwrite := w.nwrite + BitVec.ofNat 32 k }
    let i := i + k
    if n ≤ i then (w,.ret n)
    else (w,pipeFull w killed (if 0 < i then i else -1) (.pipeWrite n i))

def pipeWrite (w : World) (killed : Bool) (n i : Nat) : World × Verdict :=
  if w.readers = 0 then (w,.sigpipe (-1)) else pipeWriteLoop w killed n i

def waitChild (w : World) (pid : Int) : World × Verdict :=
  if w.children = [] then (w,.ret (-1))
  else
    match w.children.find? fun np => np.zombie && (pid == -1 || np.pid == pid) with
    | some np =>
      ({ w with children := w.children.eraseP fun q => q.zombie && (pid == -1 || q.pid == pid) },
        .ret np.pid)
    | none => (w,.sleep (.waitChild pid))

def flockConflict (w : World) (want : Flock) : Bool :=
  w.flocks.any fun f => f != .un && (want == .ex || f == .ex)

def fileflock (w : World) (cmd : Flock) : World × Verdict :=
  if flockConflict w cmd then (w,.sleep (.fileflock cmd)) else (w,.ret 0)

def interrupted (i : Nat) : Verdict := .ret (if i = 0 then -1 else i)

def consoleLoop (canon can : Bool) (n : Nat) : Nat → List UInt8 → List UInt8 × Verdict
  | i, [] =>
    ([],if n ≤ i then .ret n else if can then interrupted i else .sleep (.consoleRead n i))
  | i, ch :: rest =>
    if n ≤ i then (ch :: rest,.ret n)
    else if canon ∧ ch = 4 then (rest,.ret i)
    else if canon ∧ ch = 10 then (rest,.ret (i + 1))
    else consoleLoop canon can n (i + 1) rest

def consoleRead (w : World) (can : Bool) (n i : Nat) : World × Verdict :=
  let r := consoleLoop w.canon can n i w.cons
  ({ w with cons := r.1 },r.2)

inductive Pos where
  | user
  | call (c : Call)
  | leaving
  | gone
  deriving DecidableEq

structure State where
  proc : Signal.Proc
  killed : Bool
  state : ProcState
  pos : Pos
  world : World
  bioDone : Bool

def can (s : State) : Bool := signalCanInterrupt s.proc

def enter (s : State) : Call → World × Verdict
  | .pipeRead n => pipeRead s.world s.killed n
  | .pipeWrite n i => pipeWrite s.world s.killed n i
  | .waitChild pid => waitChild s.world pid
  | .fileflock cmd => fileflock s.world cmd
  | .consoleRead n i => consoleRead s.world (can s) n i
  | .nanosleep deadline =>
    (s.world,if deadline ≤ s.world.ticks then .ret 0 else .sleep (.nanosleep deadline))
  | .futexWait val => (s.world,if s.world.word = val then .sleep (.futexWait val) else .ret 0)
  | .blockIo more => (s.world,.request more)

def afterSleep (s : State) : Call → World × Verdict
  | .pipeWrite n i => pipeWriteLoop s.world s.killed n i
  | .consoleRead n i => if can s then (s.world,interrupted i) else consoleRead s.world false n i
  | .nanosleep _ | .futexWait _ => (s.world,.ret 0)
  | .blockIo more =>
    (s.world,if s.bioDone then
      match more with
      | 0 => .ret 0
      | more + 1 => .request more
    else .sleep (.blockIo more))
  | c => enter s c

def follow (s : State) (r : World × Verdict) : State :=
  match r.2 with
  | .sleep c => { s with world := r.1, state := .sleeping, pos := .call c }
  | .request more =>
    { s with world := r.1, state := .sleeping, pos := .call (.blockIo more), bioDone := false }
  | .ret v =>
    { s with world := r.1, proc := setEax s.proc (BitVec.ofInt 32 v), pos := .leaving }
  | .sigpipe v =>
    { s with
      world := r.1
      proc := setEax (post s.proc 13) (BitVec.ofInt 32 v)
      pos := .leaving }

inductive Op where
  | run (tf : Trapframe)
  | signal (sig : Nat) (handler : Word)
  | sigreturn
  | interrupt
  | call (c : Call)
  | resume
  | notify (env : Env)
  | preempt
  | dispatch
  | wakeup
  | complete
  | send (sig : Nat)
  | world (w : World)

def wake (s : State) : State := if s.state = .sleeping then { s with state := .runnable } else s

def step (s : State) : Op → Option (State × Unit)
  | .run tf =>
    if s.pos = .user ∧ s.state = .running ∧ tf.cs &&& 3 = dplUser then
      some ({ s with proc := { s.proc with tf := tf } },())
    else none
  | .signal sig handler =>
    if s.pos = .user ∧ s.state = .running then
      some ({ s with proc := (doSignal s.proc sig handler).1, pos := .leaving },())
    else none
  | .sigreturn =>
    if s.pos = .user ∧ s.state = .running then
      some ({ s with proc := doSigreturn s.proc, pos := .leaving },())
    else none
  | .interrupt =>
    if s.pos = .user ∧ s.state = .running then some ({ s with pos := .leaving },()) else none
  | .call c =>
    if s.pos = .user ∧ s.state = .running then
      some (follow s (enter s c.start),())
    else none
  | .resume =>
    match s.pos with
    | .call c =>
      if s.state = .running then some (follow s (afterSleep s c),()) else none
    | _ => none
  | .notify env =>
    if s.pos = .leaving ∧ s.state = .running then
      let p := signalNotify { s.proc with mode := .kernel } env
      some ({ s with proc := p, pos := if p.mode = .gone then .gone else .user },())
    else none
  | .preempt => if s.state = .running then some ({ s with state := .runnable },()) else none
  | .dispatch =>
    if s.state = .runnable ∧ s.pos ≠ .gone then some ({ s with state := .running },()) else none
  | .wakeup => some (wake s,())
  | .complete => some (wake { s with bioDone := true },())
  | .send sig =>
    if s.pos = .gone ∨ validSig sig = false then none
    else some (wake { s with proc := post s.proc sig },())
  | .world w => some ({ s with world := w },())

end TinyOs.Blocked
