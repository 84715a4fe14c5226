import Mathlib.Data.Fintype.Basic
import TinyOs.Library.Machine

namespace TinyOs.Flock

open Function (update)

def nfile : Nat := 64

abbrev Slot := Fin nfile

instance instNeZeroNfile : NeZero nfile := ⟨by decide⟩

inductive FdType where
  | none
  | inode
  | char
  | block
  deriving DecidableEq, Repr

inductive Lock where
  | sh
  | ex
  deriving DecidableEq, Repr

structure File where
  type : FdType
  ref : Nat
  flock : Option Lock
  ip : Option Nat
  deriving DecidableEq, Repr

def lockSh : Nat := 1

def lockEx : Nat := 2

def lockNb : Nat := 4

def lockUn : Nat := 8

def command (op : Nat) : Option (Option Lock) :=
  let cmd := op &&& (2 ^ 32 - 1 - lockNb)
  if cmd = lockUn then some none
  else if cmd = lockSh then some (some .sh)
  else if cmd = lockEx then some (some .ex)
  else none

structure Want where
  file : Slot
  ip : Nat
  lock : Lock
  nb : Bool
  deriving DecidableEq, Repr

inductive Pc where
  | user
  | scan (w : Want) (i : Nat)
  | passed (w : Want)
  | found (w : Want)
  | asleep (w : Want)
  | woken (w : Want)
  | waking (ip : Nat)
  | closing (f : Slot)
  | closeWake (f : Slot) (ip : Nat)
  | closeEnd (f : Slot)
  deriving DecidableEq, Repr

variable {P : Type} [DecidableEq P]

structure State (P : Type) where
  files : Slot → File
  pc : P → Pc

def conflicts (files : Slot → File) (w : Want) (i : Slot) : Bool :=
  let f := files i
  if f.ref < 1 ∨ i = w.file ∨ f.ip ≠ some w.ip ∨ f.flock = none then false
  else if w.lock = .ex then true
  else decide (f.flock = some .ex)

def setLock (files : Slot → File) (f : Slot) (l : Option Lock) : Slot → File :=
  update files f { files f with flock := l }

namespace State

def goto (s : State P) (p : P) (pc : Pc) : State P := { s with pc := update s.pc p pc }

def wakeup (s : State P) (ip : Nat) : State P :=
  { s with
    pc := fun q =>
      match s.pc q with
      | .asleep w => if w.ip = ip then .woken w else .asleep w
      | pc => pc }

def fileflock (s : State P) (p : P) (f : Slot) (op : Nat) : State P × Option Int :=
  match (s.files f).ip with
  | none => (s,some (-1))
  | some ip =>
    if (s.files f).type = .none then (s,some (-1))
    else
      match command op with
      | none => (s,some (-1))
      | some none =>
        if (s.files f).flock = none then (s,some 0)
        else ({ s with files := setLock s.files f none }.goto p (.waking ip),none)
      | some (some l) => (s.goto p (.scan ⟨f,ip,l,decide (op &&& lockNb ≠ 0)⟩ 0),none)

def fileclose (s : State P) (p : P) (f : Slot) : Option (State P × Option Int) :=
  let file := s.files f
  if file.ref < 1 then none
  else
    let s := { s with files := update s.files f { file with ref := file.ref - 1 } }
    if 1 < file.ref then some (s,some 0) else some (s.goto p (.closing f),none)

def run (s : State P) (p : P) : Option (State P × Option Int) :=
  match s.pc p with
  | .user | .asleep _ => none
  | .scan w i =>
    if h : i < nfile then
      if conflicts s.files w ⟨i,h⟩ then some (s.goto p (.found w),none)
      else some (s.goto p (.scan w (i + 1)),none)
    else some (s.goto p (.passed w),none)
  | .passed w =>
    some ({ s with files := setLock s.files w.file (some w.lock) }.goto p .user,some 0)
  | .found w =>
    if w.nb then some (s.goto p .user,some (-1)) else some (s.goto p (.asleep w),none)
  | .woken w => some (s.goto p (.scan w 0),none)
  | .waking ip => some ((s.wakeup ip).goto p .user,some 0)
  | .closing f =>
    match (s.files f).flock, (s.files f).ip with
    | some _, some ip =>
      some ({ s with files := setLock s.files f none }.goto p (.closeWake f ip),none)
    | _, _ => some (s.goto p (.closeEnd f),none)
  | .closeWake f ip => some ((s.wakeup ip).goto p (.closeEnd f),none)
  | .closeEnd f =>
    let file := s.files f
    some ({ s with
      files := update s.files f { file with type := .none, ip := none, flock := none } }.goto
        p .user,some 0)

end State

inductive Op (P : Type) where
  | flock (p : P) (f : Slot) (op : Nat)
  | close (p : P) (f : Slot)
  | run (p : P)
  deriving DecidableEq, Repr

def step (s : State P) : Op P → Option (State P × Option Int)
  | .flock p f op => if s.pc p = .user then some (s.fileflock p f op) else none
  | .close p f => if s.pc p = .user then s.fileclose p f else none
  | .run p => s.run p

structure Start (s : State P) : Prop where
  idle : ∀ p, s.pc p = .user
  free : ∀ f, (s.files f).flock = none

variable {ip : Nat} {pc : Pc}

def Open (files : Slot → File) (f : Slot) (ip : Nat) : Prop :=
  1 ≤ (files f).ref ∧ (files f).ip = some ip

def Exclusive (files : Slot → File) : Prop :=
  ∀ f g ip, f ≠ g → Open files f ip → Open files g ip → (files f).flock = some .ex →
    (files g).flock = none

def Conflict (files : Slot → File) (w : Want) : Prop := ∃ i, conflicts files w i = true

def Wakes (files : Slot → File) (ip : Nat) : Pc → Prop
  | .waking ip' => ip' = ip
  | .closeWake _ ip' => ip' = ip
  | .closing f => (files f).flock ≠ none ∧ (files f).ip = some ip
  | _ => False

def NoLostWakeup (s : State P) : Prop :=
  ∀ p w, s.pc p = .asleep w → Conflict s.files w ∨ ∃ q, Wakes s.files w.ip (s.pc q)

def Busy (ip : Nat) : Pc → Prop
  | .scan w _ | .passed w | .found w => w.ip = ip
  | _ => False

def Alone (s : State P) (p : P) (ip : Nat) : Prop := ∀ q, q ≠ p → ¬ Busy ip (s.pc q)

def WaitsSh (ip : Nat) : Pc → Prop
  | .asleep w => w.ip = ip ∧ w.lock = .sh
  | _ => False

def Turn (s : State P) (p : P) : Pc → Prop
  | .woken w => Alone s p w.ip
  | .passed w => w.lock = .sh → (s.files w.file).flock = some .ex → ∀ q, ¬ WaitsSh w.ip (s.pc q)
  | _ => True

def Ordered (s : State P) : Op P → Prop
  | .flock p f op => ∀ ip ∈ (s.files f).ip, ∀ l ∈ command op,
      (l = none → (s.files f).flock ≠ none) → Alone s p ip
  | .close p f => ∀ ip ∈ (s.files f).ip,
      (s.files f).ref = 1 → (s.files f).flock ≠ none → Alone s p ip
  | .run p => Turn s p (s.pc p)

instance : Decidable (Busy ip pc) := by
  cases pc <;> unfold Busy <;> infer_instance

instance : Decidable (WaitsSh ip pc) := by
  cases pc <;> unfold WaitsSh <;> infer_instance

instance [Fintype P] {s : State P} {p : P} : Decidable (Alone s p ip) := by
  unfold Alone
  infer_instance

instance [Fintype P] {s : State P} {p : P} : Decidable (Turn s p pc) := by
  cases pc <;> unfold Turn <;> infer_instance

instance [Fintype P] (s : State P) (op : Op P) : Decidable (Ordered s op) := by
  cases op <;> unfold Ordered <;> infer_instance

end TinyOs.Flock
