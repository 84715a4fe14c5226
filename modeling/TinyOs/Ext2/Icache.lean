import Mathlib.Data.List.FinRange
import TinyOs.Library.Machine

namespace TinyOs.Icache

abbrev niCache : Nat := 64

abbrev nBlocks : Nat := 15

abbrev rootIno : UInt32 := 2

abbrev Slot := Fin niCache

abbrev Blocks := Vector UInt32 nBlocks

inductive InodeType where
  | dir
  | file
  deriving DecidableEq

def modeToType (mode : UInt16) : Option InodeType :=
  if mode &&& 0xF000 = 0x4000 then some .dir
  else if mode &&& 0xF000 = 0x8000 then some .file
  else none

structure DiskInode where
  mode : UInt16
  size : UInt32
  block : Blocks

structure Mnode where
  type : Option InodeType
  ref : Nat
  sbi : Option Nat
  inum : UInt32
  size : UInt32
  iBlock : Blocks
  deriving DecidableEq

def Mnode.zero : Mnode where
  type := none
  ref := 0
  sbi := none
  inum := 0
  size := 0
  iBlock := Vector.replicate nBlocks 0

def Mnode.Is (m : Mnode) (sbi : Nat) (inum : UInt32) : Prop :=
  m.type ≠ none ∧ m.sbi = some sbi ∧ m.inum = inum

instance (m : Mnode) (sbi : Nat) (inum : UInt32) : Decidable (m.Is sbi inum) :=
  inferInstanceAs (Decidable (_ ∧ _))

inductive Scan where
  | hit (i : Slot)
  | free (i : Slot)
  | full

def scan (cache : Slot → Mnode) (sbi : Nat) (inum : UInt32) : List Slot → Option Slot → Scan
  | [], none => .full
  | [], some i => .free i
  | i :: rest, free =>
    if (cache i).Is sbi inum then .hit i
    else scan cache sbi inum rest (if (cache i).type = none ∧ free = none then some i else free)

structure Handle where
  slot : Slot
  sbi : Nat
  inum : UInt32
  iBlock : Blocks
  deriving DecidableEq

inductive Pc where
  | idle
  | iterating (sbi : Nat)
  | reading (free : Slot) (sbi : Nat) (inum : UInt32)
  deriving DecidableEq

structure State (P : Type) where
  cache : Slot → Mnode
  pc : P → Pc
  held : List (P × Handle)

def init {P : Type} : State P where
  cache := fun _ => Mnode.zero
  pc := fun _ => .idle
  held := []

inductive Op (P : Type) where
  | lookup (p : P) (h : Handle)
  | found (p : P) (inum : Option UInt32) (mem : Bool)
  | fillSuper (p : P) (sbi : Nat) (mem : Bool)
  | filled (p : P) (din : Option DiskInode)
  | idup (p q : P) (h : Handle)
  | iput (p : P) (h : Handle)

inductive Out where
  | asleep
  | done
  | ret (r : Option Slot)
  deriving DecidableEq

variable {P : Type} [DecidableEq P]

namespace State

def at_ (s : State P) (p : P) (c : Pc) : State P :=
  { s with pc := Function.update s.pc p c }

def store (s : State P) (i : Slot) (m : Mnode) : State P :=
  { s with cache := Function.update s.cache i m }

def hold (s : State P) (p : P) (h : Handle) : State P :=
  { s with held := (p,h) :: s.held }

end State

def ret (s : State P) (p : P) : Option (State P × Out) := some (s.at_ p .idle,.ret none)

def fresh (sbi : Nat) (inum : UInt32) (t : InodeType) (din : DiskInode) : Mnode where
  type := some t
  ref := 1
  sbi := some sbi
  inum := inum
  size := din.size
  iBlock := din.block

def ext2Iget (perGroup : Nat → UInt32) (s : State P) (p : P) (sbi : Nat) (inum : UInt32)
    (mem : Bool) : Option (State P × Out) :=
  if inum = 0 then ret s p
  else
    match scan s.cache sbi inum (List.finRange niCache) none with
    | .hit i =>
      let m := s.cache i
      some (((s.store i { m with ref := m.ref + 1 }).hold p ⟨i,sbi,inum,m.iBlock⟩).at_ p .idle,
        .ret (some i))
    | .full => ret s p
    | .free i =>
      if perGroup sbi = 0 then none
      else if (inum - 1) / perGroup sbi ≠ 0 then ret s p
      else if mem then some (s.at_ p (.reading i sbi inum),.asleep)
      else ret s p

def ext2Fill (s : State P) (p : P) (i : Slot) (sbi : Nat) (inum : UInt32) :
    Option DiskInode → Option (State P × Out)
  | none => ret s p
  | some din =>
    match modeToType din.mode with
    | none => ret (s.store i { Mnode.zero with sbi := some sbi, inum := inum }) p
    | some t =>
      some (((s.store i (fresh sbi inum t din)).hold p ⟨i,sbi,inum,din.block⟩).at_ p .idle,
        .ret (some i))

def fsIput (s : State P) (p : P) (h : Handle) : Option (State P × Out) :=
  let m := s.cache h.slot
  if m.ref = 0 then none
  else
    some ({ s.store h.slot (if m.ref = 1 then Mnode.zero else { m with ref := m.ref - 1 }) with
      held := s.held.erase (p,h) },.done)

def step (perGroup : Nat → UInt32) (s : State P) : Op P → Option (State P × Out)
  | .lookup p h =>
    if (p,h) ∈ s.held ∧ s.pc p = .idle then
      match (s.cache h.slot).sbi with
      | none => ret s p
      | some sbi =>
        if (s.cache h.slot).type = some .dir then some (s.at_ p (.iterating sbi),.asleep)
        else ret s p
    else none
  | .found p inum mem =>
    match s.pc p, inum with
    | .iterating _, none => ret s p
    | .iterating sbi, some inum => ext2Iget perGroup s p sbi inum mem
    | _, _ => none
  | .fillSuper p sbi mem =>
    if s.pc p = .idle then ext2Iget perGroup s p sbi rootIno mem else none
  | .filled p din =>
    match s.pc p with
    | .reading i sbi inum => ext2Fill s p i sbi inum din
    | _ => none
  | .idup p q h =>
    if (p,h) ∈ s.held then
      let m := s.cache h.slot
      some ((s.store h.slot { m with ref := m.ref + 1 }).hold q h,.done)
    else none
  | .iput p h => if (p,h) ∈ s.held then fsIput s p h else none

end TinyOs.Icache
