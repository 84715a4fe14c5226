import Mathlib.Data.BitVec
import TinyOs.Library.Machine
import TinyOs.Memlayout

namespace TinyOs.Signal

open Function (update)

abbrev Word := BitVec 32

structure Trapframe where
  edi : Word
  esi : Word
  ebp : Word
  oesp : Word
  ebx : Word
  edx : Word
  ecx : Word
  eax : Word
  ds : Word
  err : Word
  eip : Word
  cs : Word
  eflags : Word
  esp : Word
  ss : Word
  deriving DecidableEq

def nsig : Nat := 32

def sigkill : Nat := 9

def sigchld : Nat := 17

def sigcont : Nat := 18

def sigstop : Nat := 19

def sigDfl : Word := 0

def sigIgn : Word := 1

def sysExit : Word := 1

def sysFork : Word := 2

def sysExecve : Word := 11

def sysKill : Word := 37

def sysSignal : Word := 48

def sysSigreturn : Word := 119

def dplUser : Word := 3

def segUcode : Word := 0x18

def segUdata : Word := 0x20

def sigbit (sig : Nat) : Word := 1#32 <<< (sig - 1)

def validSig (sig : Nat) : Bool := decide (1 ≤ sig ∧ sig < nsig)

def sigFatalDefault (sig : Nat) : Bool := decide (sig ≠ sigchld ∧ sig ≠ sigcont)

inductive Mode where
  | user
  | kernel
  | gone
  deriving DecidableEq

structure Proc where
  mode : Mode
  pid : Word
  tf : Trapframe
  mem : Nat → UInt8
  sighand : Nat → Word
  sigpending : Word
  sigmasked : Word
  sighandling : Bool
  sigold : Option Trapframe
  inside : List Trapframe
  saved : List Trapframe

def poke (mem : Nat → UInt8) (a : Nat) (bs : List UInt8) : Nat → UInt8 := fun x =>
  if a ≤ x ∧ x < a + bs.length then bs.getD (x - a) 0 else mem x

def copyout (mem : Nat → UInt8) (dstva : Word) (src : List UInt8) (stop : Option Nat) :
    (Nat → UInt8) × Bool :=
  match stop with
  | none => (poke mem dstva.toNat src,true)
  | some k => (poke mem dstva.toNat (src.take k),false)

def bytes (v : Word) : List UInt8 :=
  (List.range 4).map fun i => UInt8.ofBitVec (v.extractLsb' (8 * i) 8)

def tramp : List UInt8 := 0xb8 :: bytes sysSigreturn ++ [0xcd,0x80,0x90]

structure Env where
  kmem : Bool
  tramp : Option Nat
  signum : Option Nat
  retaddr : Option Nat

def signalSetupFrame (p : Proc) (sig : Nat) (handler : Word) (env : Env) : Proc × Bool :=
  if p.tf.cs &&& dplUser = 0 then (p,false)
  else if p.tf.esp.toNat < userStackBottom + 64 ∨ userStack ≤ p.tf.esp.toNat then (p,false)
  else if handler.toNat < userLoad ∨ userEnd ≤ handler.toNat then (p,false)
  else if env.kmem = false then (p,false)
  else
    let retaddr := (p.tf.esp - 8) &&& ~~~(3 : Word)
    match copyout p.mem retaddr tramp env.tramp with
    | (mem,false) => ({ p with mem := mem },false)
    | (mem,true) =>
      match copyout mem (retaddr - 4) (bytes (BitVec.ofNat 32 sig)) env.signum with
      | (mem,false) => ({ p with mem := mem },false)
      | (mem,true) =>
        match copyout mem (retaddr - 8) (bytes retaddr) env.retaddr with
        | (mem,false) => ({ p with mem := mem },false)
        | (mem,true) =>
          ({ p with
            mem := mem
            sigold := some p.tf
            sighandling := true
            tf := { p.tf with esp := retaddr - 8, eip := handler }
            inside := p.tf :: p.inside
            saved := p.saved ++ [p.tf] },true)

def signalExitCleanup (p : Proc) : Proc := { p with sighandling := false, sigold := none }

def exitSignal (p : Proc) : Proc := { signalExitCleanup p with mode := .gone, inside := [] }

def notifyLoop (env : Env) : List Nat → Proc → Proc
  | [], p => p
  | sig :: rest, p =>
    if p.sigpending &&& ~~~p.sigmasked &&& sigbit sig = 0 then notifyLoop env rest p
    else
      let p := { p with sigpending := p.sigpending &&& ~~~sigbit sig }
      if sig = sigkill then exitSignal p
      else if p.sighand sig = sigIgn then notifyLoop env rest p
      else if p.sighand sig = sigDfl then
        if sigFatalDefault sig then exitSignal p else notifyLoop env rest p
      else
        match signalSetupFrame p sig (p.sighand sig) env with
        | (p,true) => p
        | (p,false) => exitSignal p

def signalNotify (p : Proc) (env : Env) : Proc :=
  if p.tf.cs &&& 3 ≠ dplUser then p
  else if p.sighandling then
    if p.sigpending &&& sigbit sigkill ≠ 0 then
      exitSignal { p with sigpending := p.sigpending &&& ~~~sigbit sigkill }
    else p
  else notifyLoop env (List.range nsig).tail p

def signalCanInterrupt (p : Proc) : Bool := (List.range nsig).tail.any fun sig =>
    p.sigpending &&& ~~~p.sigmasked &&& sigbit sig ≠ 0 && p.sighand sig ≠ sigIgn

def doSigreturn (p : Proc) : Proc :=
  match p.sighandling, p.sigold with
  | true, some old =>
    { p with tf := old, sighandling := false, sigold := none, inside := p.inside.tail }
  | _, _ => { p with inside := p.inside.tail }

def doSignal (p : Proc) (sig : Nat) (handler : Word) : Proc × Word :=
  if validSig sig = false ∨ sig = sigkill ∨ sig = sigstop then (p,-1)
  else if handler ≠ sigDfl ∧ handler ≠ sigIgn ∧
      (handler.toNat < userLoad ∨ userEnd ≤ handler.toNat) then (p,-1)
  else ({ p with sighand := update p.sighand sig handler },p.sighand sig)

def signalFork (p np : Proc) : Proc :=
  { np with
    sighand := p.sighand
    sigpending := 0
    sigmasked := 0
    sighandling := false
    sigold := none }

def forkChild (p : Proc) (pid : Word) : Proc :=
  signalFork p { p with mode := .kernel, pid := pid, tf := { p.tf with eax := 0 }, saved := [] }

def signalExecReset (p : Proc) : Proc :=
  { p with
    sighand := fun sig => if p.sighand sig ≠ sigIgn then sigDfl else p.sighand sig
    sigpending := 0
    sigmasked := 0
    sighandling := false
    sigold := none }

structure Image where
  entry : Word
  esp : Word
  mem : Nat → UInt8

def execLoad (p : Proc) (image : Image) : Proc :=
  { signalExecReset p with
    mem := image.mem
    inside := []
    tf := { p.tf with
      eip := image.entry, esp := image.esp, cs := segUcode ||| dplUser, ss := segUdata ||| dplUser,
      ds := segUdata ||| dplUser, eflags := 0x202 } }

variable {n : Nat}

abbrev State (n : Nat) := Fin n → Proc

structure Result (n : Nat) where
  ret : Word
  child : Option (Fin n)
  image : Option Image

def unblock (p : Proc) (sig : Nat) : Proc :=
  { p with
    sighand := update p.sighand sig sigDfl
    sigmasked := p.sigmasked &&& ~~~sigbit sig }

def setPending (p : Proc) (sig : Nat) : Proc := { p with sigpending := p.sigpending ||| sigbit sig }

def post (p : Proc) (sig : Nat) : Proc := setPending (if sig = sigkill then unblock p sig else p) sig

def signalSend (s : State n) (pid : Word) (sig : Nat) : State n × Word :=
  if validSig sig = false then (s,-1)
  else
    match (List.finRange n).find? fun q => (s q).pid = pid ∧ (s q).mode ≠ .gone with
    | none => (s,-1)
    | some q => (update s q (post (s q) sig),0)

def setEax (p : Proc) (ret : Word) : Proc := { p with tf := { p.tf with eax := ret } }

def syscall (s : State n) (p : Fin n) (r : Result n) : Option (State n) :=
  let me := { s p with mode := .kernel }
  let num := me.tf.eax
  if num = sysSigreturn then some (update s p (doSigreturn me))
  else if num = sysExit then some (update s p (exitSignal me))
  else if num = sysFork then
    match r.child with
    | none => some (update s p (setEax me (-1)))
    | some q =>
      if (s q).mode = .gone then
        some (update (update s q (forkChild me r.ret)) p (setEax me r.ret))
      else none
  else if num = sysExecve then
    match r.image with
    | none => some (update s p (setEax me (-1)))
    | some image => some (update s p (setEax (execLoad me image) 0))
  else if num = sysSignal then
    let q := doSignal me me.tf.ebx.toNat me.tf.ecx
    some (update s p (setEax q.1 q.2))
  else if num = sysKill then
    let t := signalSend (update s p me) me.tf.ebx me.tf.ecx.toNat
    some (update t.1 p (setEax (t.1 p) t.2))
  else some (update s p (setEax me r.ret))

inductive Op (n : Nat) where
  | run (p : Fin n) (tf : Trapframe)
  | memory (p : Fin n) (mem : Nat → UInt8)
  | interrupt (p : Fin n)
  | syscall (p : Fin n) (r : Result n)
  | notify (p : Fin n) (env : Env)
  | send (pid : Word) (sig : Nat)
  | childExit (parent : Fin n)

def step (s : State n) : Op n → Option (State n × Unit)
  | .run p tf =>
    if (s p).mode = .user ∧ tf.cs &&& 3 = dplUser then
      some (update s p { s p with tf := tf },())
    else none
  | .memory p mem => some (update s p { s p with mem := mem },())
  | .interrupt p =>
    if (s p).mode = .user then some (update s p { s p with mode := .kernel },()) else none
  | .syscall p r => if (s p).mode = .user then (syscall s p r).map fun t => (t,()) else none
  | .notify p env =>
    if (s p).mode = .kernel then
      let q := signalNotify (s p) env
      some (update s p (if q.mode = .gone then q else { q with mode := .user }),())
    else none
  | .send pid sig => some ((signalSend s pid sig).1,())
  | .childExit parent =>
    if (s parent).mode ≠ .gone then
      some (update s parent (setPending (s parent) sigchld),())
    else none

end TinyOs.Signal
