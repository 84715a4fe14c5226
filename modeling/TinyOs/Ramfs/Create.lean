import Mathlib.Data.List.FinRange
import TinyOs.Fs.Namei
import TinyOs.Library.Machine

namespace TinyOs.Create

open Fs (Path)

abbrev nInode : Nat := 64

abbrev Slot := Fin nInode

inductive FileType where
  | dir
  | file
  | lnk
  | other
  deriving DecidableEq

inductive Source (Name : Type) where
  | name (n : Name)
  | inode (i : Slot)

inductive Call (Name : Type) where
  | create (name : Name) (type : FileType)
  | mkdir (name : Name)
  | symlink (name : Name) (target : Path)
  | link (old : Source Name) (name : Name)

namespace Call

variable {Name : Type}

def name : Call Name → Name
  | create n _ | mkdir n | symlink n _ | link _ n => n

def type : Call Name → Option FileType
  | create _ t => some t
  | mkdir _ => some .dir
  | symlink _ _ => some .lnk
  | link _ _ => none

def data : Call Name → Option Path
  | symlink _ target => some target
  | _ => none

def keeps : Call Name → Bool
  | create _ _ => true
  | _ => false

end Call

structure Inode (P : Type) where
  type : Option FileType
  ref : Nat
  data : Option Path
  maker : Option P

def Inode.free {P : Type} : Inode P := ⟨none,0,none,none⟩

inductive Pc (Name : Type) where
  | start
  | choosing
  | claiming (i : Slot)
  | filling (i : Slot)
  | adding (i : Slot)
  | dentry (i : Slot)
  | linking (i : Slot)
  | storing (i : Slot) (next : List (Name × Slot))
  | undo (i : Slot)
  | putting (i : Slot)
  | done (r : Option Slot)
  deriving DecidableEq

structure State (P Name : Type) where
  inodes : Slot → Inode P
  dents : List (Name × Slot)
  pc : P → Pc Name

variable {P Name : Type} [DecidableEq P] [DecidableEq Name]

namespace State

def at_ (s : State P Name) (p : P) (c : Pc Name) : State P Name :=
  { s with pc := Function.update s.pc p c }

def store (s : State P Name) (i : Slot) (ip : Inode P) : State P Name :=
  { s with inodes := Function.update s.inodes i ip }

def idup (s : State P Name) (i : Slot) : State P Name :=
  s.store i { s.inodes i with ref := (s.inodes i).ref + 1 }

def iput (s : State P Name) (i : Slot) : Option (State P Name) :=
  if (s.inodes i).ref = 0 then none
  else if (s.inodes i).ref = 1 then some (s.store i .free)
  else some (s.store i { s.inodes i with ref := (s.inodes i).ref - 1 })

def dLookup (s : State P Name) (n : Name) : Option Slot := s.dents.lookup n

def namei (s : State P Name) : Source Name → Option Slot
  | .name n => s.dLookup n
  | .inode i => some i

def freeSlot (s : State P Name) : Option Slot :=
  (List.finRange nInode).find? fun i => (s.inodes i).type = none

end State

def advance (s : State P Name) (p : P) (c : Call Name) (mem : Bool) : Option (State P Name) :=
  match s.pc p with
  | .start =>
    match c with
    | .link old _ =>
      match s.namei old with
      | none => some (s.at_ p (.done none))
      | some i =>
        if (s.inodes i).type = some .dir then some (s.at_ p (.done none))
        else some ((s.idup i).at_ p (.adding i))
    | _ => some (s.at_ p (if (s.dLookup c.name).isSome then .done none else .choosing))
  | .choosing =>
    match s.freeSlot with
    | none => some (s.at_ p (.done none))
    | some i => some (s.at_ p (.claiming i))
  | .claiming i =>
    some ((s.store i ⟨c.type,1,none,some p⟩).at_ p
      (if c.data.isSome then .filling i else .adding i))
  | .filling i =>
    if mem then some ((s.store i { s.inodes i with data := c.data }).at_ p (.adding i))
    else some (s.at_ p (.undo i))
  | .adding i => some (s.at_ p (if (s.dLookup c.name).isSome then .undo i else .dentry i))
  | .dentry i => some (s.at_ p (if mem then .linking i else .undo i))
  | .linking i => some ((s.idup i).at_ p (.storing i s.dents))
  | .storing i next => some ({ s with dents := (c.name,i) :: next }.at_ p (.putting i))
  | .undo i => (s.iput i).map (·.at_ p (.done none))
  | .putting i =>
    if c.keeps then some (s.at_ p (.done (some i)))
    else (s.iput i).map (·.at_ p (.done (some i)))
  | .done _ => none

def step (call : P → Call Name) (s : State P Name) (op : P × Bool) : Option (State P Name × Unit) :=
  (advance s op.1 (call op.1) op.2).map (·,())

inductive Node (P : Type) where
  | old (i : Slot)
  | made (p : P)

structure Dir (P Name : Type) where
  dents : List (Name × Node P)
  free : Nat

namespace Dir

def names (d : Dir P Name) : List Name := d.dents.map Prod.fst

def add (d : Dir P Name) (n : Name) (x : Node P) : Dir P Name :=
  { d with dents := (n,x) :: d.dents }

def source (d : Dir P Name) : Source Name → Option (Node P)
  | .name n => d.dents.lookup n
  | .inode i => some (.old i)

def make (d : Dir P Name) (p : P) (n : Name) : Dir P Name × Bool :=
  if d.free = 0 then (d,false) else ({ d.add n (.made p) with free := d.free - 1 },true)

def link (isDir : Node P → Prop) [DecidablePred isDir] (d : Dir P Name) (old : Source Name)
    (n : Name) : Dir P Name × Bool :=
  match d.source old with
  | none => (d,false)
  | some x => if isDir x then (d,false) else (d.add n x,true)

def apply (isDir : Node P → Prop) [DecidablePred isDir] (d : Dir P Name) (p : P) (c : Call Name)
    (mem : Bool) : Dir P Name × Bool :=
  if c.name ∈ d.names ∨ mem = false then (d,false)
  else
    match c with
    | .create n _ | .mkdir n | .symlink n _ => d.make p n
    | .link old n => d.link isDir old n

def seq (isDir : Node P → Prop) [DecidablePred isDir] (call : P → Call Name) (d : Dir P Name) :
    List (P × Bool) → Dir P Name × List (P × Bool)
  | [] => (d,[])
  | (p,mem) :: rest =>
    let r := d.apply isDir p (call p) mem
    let t := seq isDir call r.1 rest
    (t.1,(p,r.2) :: t.2)

end Dir

end TinyOs.Create
