import TinyOs.Ipc.Calls
import TinyOs.Library.Machine

namespace TinyOs.ShmSections

open Function (update)

inductive Pc where
  | user
  | sized (shmid shmaddr shmflg len : Nat)
  | created (i shmid start len : Nat)
  | detaching (shmid : Nat)
  deriving DecidableEq, Repr

variable {P : Type} [DecidableEq P]

structure State (P : Type) where
  phys : Phys
  shm : ShmTable
  mm : P → Mm
  pc : P → Pc

def shmatStart (mm : Mm) (shmaddr len : Nat) : Option Nat :=
  if shmaddr ≠ 0 then
    if shmaddr % pgSize ≠ 0 then none
    else if mm.regionAvailable shmaddr ((shmaddr + len) % word) then some shmaddr
    else none
  else if mm.findMmapAddr len = 0 then none
  else some (mm.findMmapAddr len)

def shmatProt (shmflg : Nat) : Nat :=
  if shmflg &&& shmRdonly = 0 then protRead ||| protWrite else protRead

namespace State

def ctx (s : State P) (p : P) : Ctx := ⟨s.phys,s.shm,s.mm p⟩

def setCtx (s : State P) (p : P) (x : Ctx) : State P :=
  { s with phys := x.phys, shm := x.shm, mm := update s.mm p x.mm }

def goto (s : State P) (p : P) (pc : Pc) : State P := { s with pc := update s.pc p pc }

def shmget (s : State P) (key size shmflg : Nat) : State P × Option Nat :=
  let r := doShmget s.phys s.shm key size shmflg
  ({ s with phys := r.1, shm := r.2.1 },some r.2.2)

def shmctl (s : State P) (shmid cmd : Nat) : State P × Option Nat :=
  let r := doShmctl s.phys s.shm shmid cmd
  ({ s with phys := r.1, shm := r.2.1 },some (if r.2.2 then 0 else failure))

def shmat (s : State P) (p : P) (shmid shmaddr shmflg : Nat) : State P × Option Nat :=
  match shmGet s.shm shmid with
  | none => (s,some failure)
  | some seg =>
    if seg.dest then (s,some failure)
    else (s.goto p (.sized shmid shmaddr shmflg seg.size),none)

def create (s : State P) (p : P) (shmid shmaddr shmflg len : Nat) : State P × Option Nat :=
  match shmatStart (s.mm p) shmaddr len with
  | none => (s.goto p .user,some failure)
  | some start =>
    match (s.mm p).vmaCreate start ((start + len) % word) (shmatProt shmflg) mapShared shmid with
    | none => (s.goto p .user,some failure)
    | some (i,mm) =>
      ({ s with mm := update s.mm p mm }.goto p (.created i shmid start len),none)

def giveUp (s : State P) (p : P) (i : Nat) : State P × Option Nat :=
  let mm := s.mm p
  ({ s with mm := update s.mm p (mm.setVma i { mm.vmas i with used := false }) }.goto p
    .user,some failure)

def attach (s : State P) (p : P) (i shmid start : Nat) : State P × Option Nat :=
  match shmGet s.shm shmid with
  | none => s.giveUp p i
  | some seg =>
    if seg.dest then s.giveUp p i
    else
      match shmMapRange ((s.mm p).vmas i) seg ⟨s.phys,(s.mm p).pd⟩ with
      | (t,false) => (s.setCtx p ((s.ctx p).setSpace t)).giveUp p i
      | (t,true) =>
        let x := (s.ctx p).setSpace t
        ((s.setCtx p { x with
            shm := s.shm.set shmid { seg with nattch := seg.nattch + 1 } }).goto p .user,some start)

def shmdt (s : State P) (p : P) (shmaddr : Nat) : State P × Option Nat :=
  if shmaddr % pgSize ≠ 0 then (s,some failure)
  else
    match (List.range nvma).find? fun i =>
        (vmaShmid ((s.mm p).vmas i)).isSome && ((s.mm p).vmas i).start == shmaddr with
    | none => (s,some failure)
    | some i =>
      let v := (s.mm p).vmas i
      match vmaShmid v with
      | none => (s,some failure)
      | some shmid =>
        let x := ((s.ctx p).unmapVma v).setVma i { v with used := false, flags := 0 }
        ((s.setCtx p x).goto p (.detaching shmid),none)

def detach (s : State P) (p : P) (shmid : Nat) : State P × Option Nat :=
  ((s.setCtx p ((s.ctx p).detach shmid)).goto p .user,some 0)

def run (s : State P) (p : P) : Option (State P × Option Nat) :=
  match s.pc p with
  | .user => none
  | .sized shmid shmaddr shmflg len => some (s.create p shmid shmaddr shmflg len)
  | .created i shmid start _ => some (s.attach p i shmid start)
  | .detaching shmid => some (s.detach p shmid)

end State

inductive Op (P : Type) where
  | shmget (p : P) (key size shmflg : Nat)
  | shmat (p : P) (shmid shmaddr shmflg : Nat)
  | shmdt (p : P) (shmaddr : Nat)
  | shmctl (p : P) (shmid cmd : Nat)
  | run (p : P)
  deriving DecidableEq, Repr

def idle (s : State P) (p : P) (r : State P × Option Nat) : Option (State P × Option Nat) :=
  if s.pc p = .user then some r else none

def step (s : State P) : Op P → Option (State P × Option Nat)
  | .shmget p key size shmflg => idle s p (s.shmget key size shmflg)
  | .shmat p shmid shmaddr shmflg => idle s p (s.shmat p shmid shmaddr shmflg)
  | .shmdt p shmaddr => idle s p (s.shmdt p shmaddr)
  | .shmctl p shmid cmd => idle s p (s.shmctl shmid cmd)
  | .run p => s.run p

def Op.Calls (p : P) : Op P → Prop
  | .shmget q _ _ _ | .shmat q _ _ _ | .shmdt q _ | .shmctl q _ _ => q = p
  | .run _ => False

def Pc.awaits : Pc → Option (Nat × Nat)
  | .sized shmid _ _ len | .created _ shmid _ len => some (shmid,len)
  | _ => none

def freeSlot (tbl : ShmTable) : Option Nat := (List.range nshm).find? fun i => !(tbl i).inuse

def Undisturbed (s : State P) : Op P → Prop
  | .shmget _ _ size _ => ∀ q, ∀ w ∈ (s.pc q).awaits,
      freeSlot s.shm = some w.1 → pgRoundUp size = w.2
  | _ => True

instance [Fintype P] (s : State P) (op : Op P) : Decidable (Undisturbed s op) := by
  cases op <;> unfold Undisturbed <;> infer_instance

def Sized (tbl : ShmTable) : Prop :=
  ∀ id, (tbl id).inuse = true → (tbl id).size = (tbl id).npages * pgSize ∧
    (tbl id).npages ≤ shmMaxPages

structure Start (s : State P) : Prop where
  idle : ∀ p, s.pc p = .user
  sized : Sized s.shm

structure Maps (mm mm' : Mm) (seg : ShmSeg) (i : Nat) : Prop where
  free : (mm.vmas i).used = false
  used : (mm'.vmas i).used = true
  length : (mm'.vmas i).stop = (mm'.vmas i).start + seg.size
  pages : ∀ j < seg.npages, ∃ f, seg.pages j = some f ∧
    ∀ a < word, a / pgSize = (mm'.vmas i).start / pgSize + j →
      mm'.pd.lookup a = some ⟨f,⟨(mm'.vmas i).writable,true,false⟩⟩
  inside : ∀ a < word, mm'.pd.lookup a ≠ mm.pd.lookup a →
    (mm'.vmas i).start ≤ a ∧ a < (mm'.vmas i).stop
  kept : ∀ a < word, mm.pd.lookup a ≠ none → mm'.pd.lookup a = mm.pd.lookup a
  others : ∀ j, j ≠ i → mm'.vmas j = mm.vmas j

end TinyOs.ShmSections
