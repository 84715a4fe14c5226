import TinyOs.Library.Effects
import TinyOs.Mm.Slab

namespace TinyOs.FileCalls

open Effects Slab

inductive Req where
  | kmalloc (size : Nat)
  | kfree (ptr : Option Ptr)
  | copyin (p srcva n : Nat)

abbrev Ans : Req → Type
  | .kmalloc _ => Option Ptr
  | .kfree _ => Unit
  | .copyin _ _ _ => Option (List UInt8)

abbrev Prog := Effects.Prog Ans

def kmalloc (size : Nat) : Prog (Option Ptr) := .ask (Req.kmalloc size)

def kfree (ptr : Option Ptr) : Prog Unit := .ask (Req.kfree ptr)

def copyin (p srcva n : Nat) : Prog (Option (List UInt8)) := .ask (Req.copyin p srcva n)

inductive Itype where
  | dir
  | file
  | lnk
  deriving DecidableEq, Repr

structure Inode where
  type : Itype
  size : Nat
  data : Option Ptr
  contents : Nat → UInt8

def Inode.replace (ip : Inode) (buf : Ptr) (size keep : Nat) : Inode :=
  { ip with
    data := some buf
    size := size
    contents := fun i => if i < keep then ip.contents i else 0 }

def Inode.store (ip : Inode) (src : List UInt8) (off n : Nat) : Inode :=
  { ip with
    contents := fun i => if off ≤ i ∧ i < off + n then src.getD (i - off) 0 else ip.contents i
    size := if ip.size < (off + n) % word then (off + n) % word else ip.size }

def ramfsWrite (ip : Inode) (src : List UInt8) (off n : Nat) : Prog (Inode × Int) :=
  if ip.type ≠ .file then pure (ip,-1)
  else if n = 0 then pure (ip,0)
  else
    let newsize := (off + n) % word
    if ip.size < newsize ∨ ip.data = none then do
      match ← kmalloc (if newsize = 0 then 1 else newsize) with
      | none => pure (ip,-1)
      | some buf =>
        kfree ip.data
        pure ((ip.replace buf newsize ip.size).store src off n,n)
    else pure (ip.store src off n,n)

def ramfsTruncate (ip : Inode) (length : Nat) : Prog (Inode × Int) :=
  if ip.type ≠ .file then pure (ip,-1)
  else if length = ip.size then pure (ip,0)
  else if length = 0 then do
    kfree ip.data
    pure ({ ip with data := none, size := 0 },0)
  else do
    match ← kmalloc length with
    | none => pure (ip,-1)
    | some buf =>
      kfree ip.data
      pure (ip.replace buf length ip.size,0)

def ramfsRead (ip : Inode) (off n : Nat) : Option (List UInt8) :=
  if ip.type = .dir then none
  else if ip.size < off then some []
  else
    let n := if ip.size < (off + n) % word then ip.size - off else n
    if ip.data = none then some []
    else some ((List.range n).map fun i => ip.contents (off + i))

def fsWritei (ip : Inode) (src : List UInt8) (off n : Nat) : Prog (Inode × Int) :=
  ramfsWrite ip src off n

def fsTruncate (ip : Inode) (length : Nat) : Prog (Inode × Int) :=
  if ip.type ≠ .file then pure (ip,-1) else ramfsTruncate ip length

def fsReadi (ip : Inode) (off n : Nat) : Prog (Option (List UInt8)) := pure (ramfsRead ip off n)

structure File where
  writable : Bool
  append : Bool
  off : Nat

def toInt (n : Int) : Int := n.bmod word

def filelseek (f : File) (ip : Inode) (offset : Int) (whence : Nat) : File × Int :=
  let base : Option Int :=
    match whence with
    | 0 => some 0
    | 1 => some (toInt f.off)
    | 2 => some (toInt ip.size)
    | _ => none
  match base with
  | none => (f,-1)
  | some base =>
    let newoff := toInt (base + offset)
    if newoff < 0 then (f,-1) else ({ f with off := newoff.toNat },newoff)

def filewrite (f : File) (ip : Inode) (src : List UInt8) (n : Nat) : Prog (File × Inode × Int) :=
  if !f.writable then pure (f,ip,-1)
  else do
    let f := if f.append ∧ ip.type = .file then { f with off := ip.size } else f
    let r ← fsWritei ip src f.off n
    pure (if 0 < r.2 then { f with off := (f.off + r.2.toNat) % word } else f,r.1,r.2)

def bufSize : Nat := 128

def writeLoop (p uaddr n : Nat) (f : File) (ip : Inode) (total : Nat) : Prog (File × Inode × Int) :=
  if total < n then do
    let chunk := min bufSize (n - total)
    match ← copyin p (uaddr + total) chunk with
    | none => pure (f,ip,-1)
    | some buf =>
      let r ← filewrite f ip buf chunk
      if r.2.2 < 0 then pure (r.1,r.2.1,-1)
      else if r.2.2 < chunk then pure (r.1,r.2.1,total + r.2.2)
      else writeLoop p uaddr n r.1 r.2.1 (total + r.2.2.toNat)
  else pure (f,ip,total)
termination_by n - total
decreasing_by
  have hchunk : 1 ≤ chunk := by
    simp only [chunk,bufSize]
    omega
  omega

end TinyOs.FileCalls
