import Mathlib.Data.Fintype.Basic
import TinyOs.Library.Machine
import TinyOs.Memlayout

namespace TinyOs.Fs

open List Option
open Function (update)

def pipeSize : Nat := 512

abbrev nFile : Nat := 64

def sizeofBuf : Nat := 128

abbrev Byte := UInt8

inductive Chan where
  | nread
  | nwrite
  | readers
  | writers
  deriving DecidableEq

structure Pipe where
  data : Nat → Byte
  nread : Nat
  nwrite : Nat
  readers : Nat
  writers : Nat

namespace Pipe

def put (pi : Pipe) (b : Byte) : Pipe :=
  { pi with
    data := update pi.data (pi.nwrite % pipeSize) b
    nwrite := (pi.nwrite + 1) % word }

def putAll (pi : Pipe) (src : List Byte) : Pipe := src.foldl put pi

def fill (pi : Pipe) : List Byte → Pipe × List Byte
  | [] => (pi,[])
  | b :: src =>
    if pi.nwrite = (pi.nread + pipeSize) % word then (pi,[])
    else
      let r := (pi.put b).fill src
      (r.1,b :: r.2)

def take (pi : Pipe) : Nat → Pipe × List Byte
  | 0 => (pi,[])
  | n + 1 =>
    if pi.nread = pi.nwrite then (pi,[])
    else
      let r := { pi with nread := (pi.nread + 1) % word }.take n
      (r.1,pi.data (pi.nread % pipeSize) :: r.2)

end Pipe

inductive Flow (ρ : Type) where
  | ret (r : Int)
  | sleep (chan : Chan) (k : ρ)

structure Stretch (ρ : Type) where
  pipe : Pipe
  stored : List Byte
  got : List Byte
  wakes : List Chan
  flow : Flow ρ

def pipeWriteLoop (pi : Pipe) (killed : Bool) (src : List Byte) (i : Nat) : Stretch Nat :=
  let n := src.length
  if 0 < n ∧ n ≤ pipeSize then
    if (pi.nread + pipeSize) % word < (pi.nwrite + n) % word then
      if pi.readers = 0 ∨ killed then ⟨pi,[],[],[],.ret (-1)⟩
      else ⟨pi,[],[],[.nread],.sleep .nwrite i⟩
    else ⟨pi.putAll src,src,[],[.nread],.ret n⟩
  else
    let (pi',stored) := pi.fill (src.drop i)
    let j := i + stored.length
    if n ≤ j then ⟨pi',stored,[],[.nread],.ret n⟩
    else if pi.readers = 0 ∨ killed then ⟨pi',stored,[],[],.ret (if 0 < j then j else -1)⟩
    else ⟨pi',stored,[],[.nread],.sleep .nwrite j⟩

def pipeWrite (pi : Pipe) (killed : Bool) (src : List Byte) : Stretch Nat :=
  if pi.readers = 0 then ⟨pi,[],[],[],.ret (-1)⟩ else pipeWriteLoop pi killed src 0

def pipeRead (pi : Pipe) (killed : Bool) (n : Nat) : Stretch Unit :=
  if pi.nread = pi.nwrite ∧ pi.writers ≠ 0 then
    if killed then ⟨pi,[],[],[],.ret (-1)⟩ else ⟨pi,[],[],[],.sleep .nread ()⟩
  else
    let (pi',dst) := pi.take n
    ⟨pi',[],dst,[.nwrite],.ret dst.length⟩

structure File where
  readable : Bool
  writable : Bool

def dropEnd (k : Nat) : Nat := if 0 < k then k - 1 else k

def pipeRelease (pi : Pipe) (f : File) : Stretch Empty :=
  let readers := if f.readable then dropEnd pi.readers else pi.readers
  let writers := if f.writable then dropEnd pi.writers else pi.writers
  ⟨{ pi with readers := readers, writers := writers },[],[],
    (if f.readable && readers == 0 then [.nwrite] else []) ++
      (if f.writable && writers == 0 then [.nread] else []),.ret 0⟩

def fifoOnOpen (pi : Pipe) (f : File) : Stretch Empty :=
  ⟨{ pi with
      readers := if f.readable then (pi.readers + 1) % word else pi.readers
      writers := if f.writable then (pi.writers + 1) % word else pi.writers },[],[],
    [.readers,.writers],.ret 0⟩

def Stretch.map {ρ τ : Type} (g : ρ → τ) (x : Stretch ρ) : Stretch τ :=
  { x with flow := match x.flow with | .ret r => .ret r | .sleep chan k => .sleep chan (g k) }

inductive Call where
  | write (f : Fin nFile) (src : List Byte) (i : Option Nat) (total : Nat) (rest : List Byte)
  | read (f : Fin nFile) (n : Nat)
  | release (f : Fin nFile)
  | openFifo (f : Fin nFile) (file : File)

namespace Call

def file : Call → Fin nFile
  | write f _ _ _ _ | read f _ | release f | .openFifo f _ => f

def usesEnd : Call → Bool
  | write _ _ _ _ _ | read _ _ => true
  | release _ | .openFifo _ _ => false

end Call

inductive Task where
  | idle
  | ready (c : Call)
  | inside (c : Call) (wakes : List Chan) (flow : Flow Call)
  | parking (chan : Chan) (c : Call)
  | asleep (chan : Chan) (c : Call)

def Task.call : Task → Option Call
  | idle => none
  | ready c | inside c _ _ | parking _ c | asleep _ c => some c

structure State (P : Type) where
  pipe : Pipe
  files : Fin nFile → Option File
  lock : Option P
  procLock : Option P
  tasks : P → Task
  killed : P → Bool

inductive Event (P : Type) where
  | start (p : P) (buf : List Byte)
  | put (p : P) (b : Byte)
  | got (b : Byte)
  | ret (p : P) (r : Int)
  deriving DecidableEq

inductive Op (P : Type) where
  | write (p : P) (f : Fin nFile) (src : List Byte)
  | sysWrite (p : P) (f : Fin nFile) (buf : List Byte)
  | read (p : P) (f : Fin nFile) (n : Nat)
  | close (p : P) (f : Fin nFile)
  | openFifo (p : P) (f : Fin nFile) (file : File)
  | enter (p : P)
  | wake (p : P)
  | leave (p : P)
  | park (p : P)
  | settle (p : P)
  | signal (p : P)
  | efault (p : P)

namespace State

variable {P : Type} [DecidableEq P] [Fintype P]

def setTask (s : State P) (p : P) (t : Task) : State P :=
  { s with tasks := update s.tasks p t }

def sysWriteChunk (f : Fin nFile) (total : Nat) (buf : List Byte) : Call :=
  .write f (buf.take sizeofBuf) none total (buf.drop sizeofBuf)

def usable (s : State P) (f : Fin nFile) (test : File → Bool) : Prop :=
  (s.files f).any test = true ∧ ∀ q, ∀ c ∈ (s.tasks q).call, c.file = f → c.usesEnd = true

def unused (s : State P) (f : Fin nFile) : Prop := ∀ q, ∀ c ∈ (s.tasks q).call, c.file ≠ f

instance (s : State P) (f : Fin nFile) (test : File → Bool) : Decidable (s.usable f test) :=
  inferInstanceAs (Decidable (_ ∧ _))

instance (s : State P) (f : Fin nFile) : Decidable (s.unused f) :=
  inferInstanceAs (Decidable (∀ _, _))

def wakeup (s : State P) (chan : Chan) : State P :=
  { s with tasks := fun q =>
      match s.tasks q with
      | .asleep c k => if c = chan then .ready k else .asleep c k
      | t => t }

def stretch (s : State P) (p : P) : Call → Stretch Call
  | .write f src i total rest =>
    (match i with
      | none => pipeWrite s.pipe (s.killed p) src
      | some i => pipeWriteLoop s.pipe (s.killed p) src i).map
      fun j => .write f src (some j) total rest
  | .read f n => (pipeRead s.pipe (s.killed p) n).map fun _ => .read f n
  | .release f => (pipeRelease s.pipe ((s.files f).getD ⟨false,false⟩)).map nofun
  | .openFifo _ file => (fifoOnOpen s.pipe file).map nofun

def filesAfter (s : State P) : Call → Fin nFile → Option File
  | .write _ _ _ _ _ | .read _ _ => s.files
  | .release f => update s.files f none
  | .openFifo f file => update s.files f (some file)

def afterReturn (p : P) (r : Int) : Call → Task × List (Event P)
  | .write f src _ total rest =>
    if r < 0 then (.idle,[.ret p (-1)])
    else if r = src.length ∧ rest ≠ [] then (.ready (sysWriteChunk f (total + r.toNat) rest),[])
    else (.idle,[.ret p (total + r)])
  | .read _ _ | .release _ | .openFifo _ _ => (.idle,[.ret p r])

def resting (s : State P) (p : P) : Prop := (s.tasks p).call.isNone = true

instance (s : State P) (p : P) : Decidable (s.resting p) := inferInstanceAs (Decidable (_ = _))

def step (s : State P) : Op P → Option (State P × List (Event P))
  | .write p f src =>
    if s.resting p ∧ s.usable f (·.writable) then
      if 2 ^ 31 ≤ src.length then some (s,[.start p src,.ret p (-1)])
      else some (s.setTask p (.ready (.write f src none 0 [])),[.start p src])
    else none
  | .sysWrite p f buf =>
    if s.resting p ∧ s.usable f (·.writable) then
      if 2 ^ 31 ≤ buf.length then some (s,[.start p buf,.ret p (-1)])
      else if buf = [] then some (s,[.start p buf,.ret p 0])
      else some (s.setTask p (.ready (sysWriteChunk f 0 buf)),[.start p buf])
    else none
  | .read p f n =>
    if s.resting p ∧ s.usable f (·.readable) ∧ n < 2 ^ 31 then
      some (s.setTask p (.ready (.read f n)),[])
    else none
  | .close p f =>
    if s.resting p ∧ s.unused f ∧ (s.files f).isSome then
      some (s.setTask p (.ready (.release f)),[])
    else none
  | .openFifo p f file =>
    if s.resting p ∧ s.unused f ∧ (s.files f).isNone then
      some (s.setTask p (.ready (.openFifo f file)),[])
    else none
  | .enter p =>
    match s.lock, s.tasks p with
    | none, .ready c =>
      let x := s.stretch p c
      some ({ s with
          pipe := x.pipe
          files := s.filesAfter c
          lock := some p
          tasks := update s.tasks p (.inside c x.wakes x.flow) },
        x.stored.map (.put p) ++ x.got.map .got)
    | _, _ => none
  | .wake p =>
    match s.procLock, s.tasks p with
    | none, .inside c (chan :: wakes) flow =>
      some ((s.wakeup chan).setTask p (.inside c wakes flow),[])
    | _, _ => none
  | .leave p =>
    match s.tasks p with
    | .inside c [] (.ret r) =>
      let (t,es) := afterReturn p r c
      some ({ s.setTask p t with lock := none },es)
    | _ => none
  | .park p =>
    match s.procLock, s.tasks p with
    | none, .inside _ [] (.sleep chan k) =>
      some ({ s.setTask p (.parking chan k) with lock := none, procLock := some p },[])
    | _, _ => none
  | .settle p =>
    match s.tasks p with
    | .parking chan k => some ({ s.setTask p (.asleep chan k) with procLock := none },[])
    | _ => none
  | .signal p =>
    match s.procLock, s.tasks p with
    | none, .asleep _ k => some (s.setTask p (.ready k),[])
    | _, _ => none
  | .efault p =>
    match s.tasks p with
    | .ready (.write _ _ none _ _) => some (s.setTask p .idle,[.ret p (-1)])
    | _ => none

end State

variable {P : Type}

def pipealloc (data : Nat → Byte) (f0 f1 : Fin nFile) : State P where
  pipe := ⟨data,0,0,1,1⟩
  files := update (update (fun _ => none) f0 (some ⟨true,false⟩)) f1
    (some ⟨false,true⟩)
  lock := none
  procLock := none
  tasks := fun _ => .idle
  killed := fun _ => false

def fifoInitInode (data : Nat → Byte) : State P where
  pipe := ⟨data,0,0,0,0⟩
  files := fun _ => none
  lock := none
  procLock := none
  tasks := fun _ => .idle
  killed := fun _ => false

inductive Created : State P → Prop where
  | pipe (data : Nat → Byte) {f0 f1 : Fin nFile} (h : f0 ≠ f1) : Created (pipealloc data f0 f1)
  | fifo (data : Nat → Byte) : Created (fifoInitInode data)

namespace Event

def stored (es : List (Event P)) : List Byte :=
  es.filterMap fun e => match e with | put _ b => some b | _ => none

def returned (es : List (Event P)) : List Byte :=
  es.filterMap fun e => match e with | got b => some b | _ => none

@[simp] theorem stored_append (es es' : List (Event P)) :
    stored (es ++ es') = stored es ++ stored es' := filterMap_append

@[simp] theorem returned_append (es es' : List (Event P)) :
    returned (es ++ es') = returned es ++ returned es' := filterMap_append

@[simp] theorem stored_put (p : P) (bs : List Byte) : stored (bs.map (put p)) = bs := by
  simp [stored,filterMap_map]

@[simp] theorem stored_got (bs : List Byte) : stored (bs.map (got : Byte → Event P)) = [] := by
  simp [stored]

@[simp] theorem returned_put (p : P) (bs : List Byte) : returned (bs.map (put p)) = [] := by
  simp [returned]

@[simp] theorem returned_got (bs : List Byte) : returned (bs.map (got : Byte → Event P)) = bs := by
  simp [returned,filterMap_map]

end Event

section Cases

variable [DecidableEq P] [Fintype P]

inductive Step (s : State P) : Op P → State P → List (Event P) → Prop where
  | refuse {op : Op P} {p : P} {buf : List Byte} {r : Int} (hp : s.resting p) (hr : r < 0 ∨ buf = []) :
      Step s op s [.start p buf,.ret p r]
  | write {op : Op P} {p : P} {f : Fin nFile} {src rest : List Byte} (hp : s.resting p)
      (hf : s.usable f (·.writable)) (hrest : rest = [] ∨ src.length = sizeofBuf) :
      Step s op (s.setTask p (.ready (.write f src none 0 rest))) [.start p (src ++ rest)]
  | read {p : P} {f : Fin nFile} {n : Nat} (hp : s.resting p) (hf : s.usable f (·.readable)) :
      Step s (.read p f n) (s.setTask p (.ready (.read f n))) []
  | close {p : P} {f : Fin nFile} (hp : s.resting p) (hf : s.unused f)
      (hopen : (s.files f).isSome) : Step s (.close p f) (s.setTask p (.ready (.release f))) []
  | openFifo {p : P} {f : Fin nFile} {file : File} (hp : s.resting p) (hf : s.unused f)
      (hfree : (s.files f).isNone) :
      Step s (.openFifo p f file) (s.setTask p (.ready (.openFifo f file))) []
  | enter {p : P} {c : Call} (hl : s.lock = none) (hp : s.tasks p = .ready c) :
      Step s (.enter p) { s with
          pipe := (s.stretch p c).pipe
          files := s.filesAfter c
          lock := some p
          tasks := update s.tasks p (.inside c (s.stretch p c).wakes (s.stretch p c).flow) }
        ((s.stretch p c).stored.map (.put p) ++ (s.stretch p c).got.map .got)
  | wake {p : P} {c : Call} {chan : Chan} {wakes : List Chan} {flow : Flow Call}
      (hl : s.procLock = none) (hp : s.tasks p = .inside c (chan :: wakes) flow) :
      Step s (.wake p) ((s.wakeup chan).setTask p (.inside c wakes flow)) []
  | leave {p : P} {c : Call} {r : Int} (hp : s.tasks p = .inside c [] (.ret r)) :
      Step s (.leave p) { s.setTask p (State.afterReturn p r c).1 with lock := none }
        (State.afterReturn p r c).2
  | park {p : P} {c k : Call} {chan : Chan} (hl : s.procLock = none)
      (hp : s.tasks p = .inside c [] (.sleep chan k)) :
      Step s (.park p) { s.setTask p (.parking chan k) with lock := none, procLock := some p } []
  | settle {p : P} {chan : Chan} {k : Call} (hp : s.tasks p = .parking chan k) :
      Step s (.settle p) { s.setTask p (.asleep chan k) with procLock := none } []
  | signal {p : P} {chan : Chan} {k : Call} (hl : s.procLock = none)
      (hp : s.tasks p = .asleep chan k) : Step s (.signal p) (s.setTask p (.ready k)) []
  | efault {p : P} {f : Fin nFile} {src rest : List Byte} {total : Nat}
      (hp : s.tasks p = .ready (.write f src none total rest)) :
      Step s (.efault p) (s.setTask p .idle) [.ret p (-1)]

theorem sysWriteChunk_length (buf : List Byte) :
    buf.drop sizeofBuf = [] ∨ (buf.take sizeofBuf).length = sizeofBuf := by
  rw [drop_eq_nil_iff,length_take]
  omega

theorem step_cases {s s' : State P} {op : Op P} {es : List (Event P)}
    (h : s.step op = some (s',es)) : Step s op s' es := by
  cases op with
  | write p f src =>
    obtain ⟨hg,he⟩ := ite_none_right_eq_some.mp h
    split at he
    · cases he
      exact .refuse hg.1 (.inl (by decide))
    cases he
    have hw : Step s (.write p f src) _ _ :=
      .write hg.1 hg.2 (.inl rfl : [] = [] ∨ src.length = sizeofBuf)
    rwa [append_nil] at hw
  | sysWrite p f buf =>
    obtain ⟨hg,he⟩ := ite_none_right_eq_some.mp h
    split at he
    · cases he
      exact .refuse hg.1 (.inl (by decide))
    split at he
    · rename_i hb
      cases he
      exact .refuse hg.1 (.inr hb)
    · cases he
      have hw : Step s (.sysWrite p f buf) _ _ := .write hg.1 hg.2 (sysWriteChunk_length buf)
      rwa [take_append_drop] at hw
  | read p f n =>
    obtain ⟨hg,he⟩ := ite_none_right_eq_some.mp h
    cases he
    exact .read hg.1 hg.2.1
  | close p f | openFifo p f file =>
    obtain ⟨⟨hp,hf,hopen⟩,he⟩ := ite_none_right_eq_some.mp h
    cases he
    constructor <;> assumption
  | enter p | wake p | leave p | park p | settle p | signal p | efault p =>
    simp only [State.step] at h
    split at h
    · cases h
      constructor <;> assumption
    · cases h

end Cases

end TinyOs.Fs
