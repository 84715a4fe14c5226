import Mathlib.Data.Fintype.Option
import TinyOs.Fs.Namei
import TinyOs.Library.Machine

namespace TinyOs.Fs

open Function (update)

abbrev nInode : Nat := 64

abbrev Ino := Fin nInode

structure Node where
  type : FileType
  dents : List (Path × Ino)
  parent : Option Ino
  data : List UInt8

structure Ram (P : Type) where
  node : Ino → Option Node
  root : Ino
  cwd : P → Option Ino
  files : Ino → Nat

namespace Ram

variable {P : Type}

def kind (s : Ram P) (i : Ino) : Option FileType := (s.node i).map (·.type)

def dents (s : Ram P) (i : Ino) : List (Path × Ino) := (s.node i).elim [] (·.dents)

def parent (s : Ram P) (i : Ino) : Option Ino := (s.node i).bind (·.parent)

def modify (s : Ram P) (i : Ino) (f : Node → Node) : Ram P :=
  { s with node := update s.node i ((s.node i).map f) }

def dLookup (s : Ram P) (dir : Ino) (name : Path) : Option Ino :=
  if s.kind dir = some .dir then ((s.dents dir).find? (·.1 = name)).map (·.2) else none

def graph (s : Ram P) (p : P) : Graph Ino where
  root := some s.root
  cwd := s.cwd p
  type := fun i => (s.kind i).getD .other
  parent := s.parent
  lookup := fun i => if (s.node i).isSome then some (s.dLookup i) else none
  readi := fun i => (s.node i).map (·.data)

def namei (s : Ram P) (p : P) (d : Nat) (path : Path) : Option Ino :=
  ((s.graph p).namex d path false true).bind (·.1)

def nameiParent (s : Ram P) (p : P) (d : Nat) (path : Path) : Option (Ino × Path) :=
  (((s.graph p).namex d path true true).bind (·.1)).bind fun dp =>
    (elems path.length path).getLast?.map fun name => (dp,name)

def special (name : Path) : Bool := name = [dot] || name = [dot,dot]

def dAdd (s : Ram P) (dir : Ino) (name : Path) (ip : Ino) : Option (Ram P) :=
  if s.kind dir = some .dir ∧ name ≠ [] ∧ s.dLookup dir name = none then
    let s := s.modify ip fun nd => { nd with parent := some (nd.parent.getD dir) }
    some (s.modify dir fun nd => { nd with dents := (name.take (dirSiz - 1),ip) :: nd.dents })
  else none

def ialloc (s : Ram P) (type : FileType) (data : List UInt8) : Option (Ram P × Ino) :=
  ((List.finRange nInode).find? fun i => (s.node i).isNone).map fun i =>
    ({ s with node := update s.node i (some ⟨type,[],none,data⟩) },i)

variable [Fintype P]

def referenced (s : Ram P) (i : Ino) : Prop :=
  0 < s.files i ∨ (∃ p, s.cwd p = some i) ∨ ∃ j, ∃ e ∈ s.dents j, e.2 = i

instance (s : Ram P) (i : Ino) : Decidable (s.referenced i) :=
  inferInstanceAs (Decidable (_ ∨ _ ∨ _))

def iput (busy : List Ino) : Nat → Ram P → Ino → Ram P
  | 0, s, _ => s
  | n + 1, s, i =>
    if s.referenced i ∨ i = s.root ∨ i ∈ busy then s
    else
      (s.dents i).foldl (fun s e => iput busy n s e.2) { s with node := update s.node i none }

def release (s : Ram P) (busy : List Ino) (i : Ino) : Ram P := s.iput busy nInode i

def dUnlink (s : Ram P) (busy : List Ino) (dir : Ino) (name : Path) : Option (Ram P) :=
  (s.dLookup dir name).map fun ip =>
    (s.modify dir fun nd => { nd with dents := nd.dents.eraseP (·.1 = name) }).release busy ip

def ramfsCreate (s : Ram P) (dir : Ino) (name : Path) (type : FileType) (data : List UInt8) :
    Option (Ram P × Ino) :=
  if s.dLookup dir name = none then
    (s.ialloc type data).bind fun r => (r.1.dAdd dir name r.2).map fun s => (s,r.2)
  else none

def moveEntry (s : Ram P) (oldDir : Ino) (oldName : Path) (newDir : Ino) (newName : Path)
    (ip : Ino) : Option (Ram P) :=
  if oldDir = newDir then
    some (s.modify oldDir fun nd =>
      { nd with dents := nd.dents.replaceF fun e =>
          if e.1 = oldName then some (newName.take (dirSiz - 1),e.2) else none })
  else
    (s.dUnlink [oldDir,newDir,ip] oldDir oldName).bind fun s =>
      (s.dAdd newDir newName ip).map fun s =>
        if s.kind ip = some .dir then s.modify ip fun nd => { nd with parent := some newDir }
        else s

def ramfsRename (s : Ram P) (oldDir : Ino) (oldName : Path) (newDir : Ino) (newName : Path) :
    Option (Ram P) :=
  if s.kind oldDir = some .dir ∧ s.kind newDir = some .dir then
    (s.dLookup oldDir oldName).bind fun ip =>
      if oldDir = newDir ∧ oldName = newName then some s
      else
        match s.dLookup newDir newName with
        | none => s.moveEntry oldDir oldName newDir newName ip
        | some t =>
          if t = ip then some s
          else if s.kind t = some .dir then
            if s.kind ip = some .dir ∧ s.dents t = [] then
              (s.dUnlink [oldDir,newDir] newDir newName).bind fun s =>
                s.moveEntry oldDir oldName newDir newName ip
            else none
          else if s.kind ip = some .dir then none
          else
            (s.dUnlink [oldDir,newDir] newDir newName).bind fun s =>
              s.moveEntry oldDir oldName newDir newName ip
  else none

def fsInit : Option (Ram P) :=
  let s : Ram P := ⟨fun _ => none,0,fun _ => none,fun _ => 0⟩
  (s.ialloc .dir []).bind fun (s,root) =>
    let s := { s.modify root fun nd => { nd with parent := some root } with root := root }
    (s.ialloc .dir []).bind fun (s,dev) =>
      (s.dAdd root "dev".toUTF8.toList dev).bind fun s =>
        (s.ialloc .other []).bind fun (s,console) =>
          (s.dAdd dev "console".toUTF8.toList console).bind fun s =>
            (s.ramfsCreate root "hello".toUTF8.toList .other
              "Hello from Tiny-OS ramfs!\n".toUTF8.toList).map (·.1)

end Ram

inductive FsOp (P : Type) where
  | mkdir (p : P) (d : Nat) (path : Path)
  | create (p : P) (d : Nat) (path : Path) (type : FileType)
  | mknod (p : P) (d : Nat) (path : Path)
  | symlink (p : P) (d : Nat) (target path : Path)
  | link (p : P) (d : Nat) (oldpath newpath : Path)
  | unlink (p : P) (d : Nat) (path : Path)
  | rmdir (p : P) (d : Nat) (path : Path)
  | rename (p : P) (d : Nat) (oldpath newpath : Path)
  | open (p : P) (d : Nat) (path : Path)
  | close (i : Ino)
  | chdir (p : P) (d : Nat) (path : Path)
  | fchdir (p : P) (i : Ino)
  | fork (p q : P)
  | exit (p : P)

namespace Ram

variable {P : Type} [DecidableEq P] [Fintype P]

def isCwd (s : Ram P) (i : Ino) : Prop := ∃ p, s.cwd p = some i

instance (s : Ram P) (i : Ino) : Decidable (s.isCwd i) := inferInstanceAs (Decidable (∃ _, _))

def place (s : Ram P) (p : P) (d : Nat) (path : Path) : Option (Ino × Path) :=
  (s.nameiParent p d path).filter fun r => !special r.2

def setCwd (s : Ram P) (p : P) (ip : Ino) : Option (Ram P) :=
  if s.kind ip = some .dir then
    let s' := { s with cwd := update s.cwd p (some ip) }
    some ((s.cwd p).elim s' (s'.release []))
  else none

def step (s : Ram P) : FsOp P → Option (Ram P)
  | .mkdir p d path =>
    (s.place p d path).bind fun (dp,name) =>
      (s.ramfsCreate dp name .dir []).map fun r => (r.1.release [dp] r.2).release [] dp
  | .create p d path type =>
    (s.nameiParent p d path).bind fun (dp,name) =>
      (s.ramfsCreate dp name type []).map fun r =>
        { r.1 with files := update r.1.files r.2 (r.1.files r.2 + 1) }.release [] dp
  | .mknod p d path =>
    (s.nameiParent p d path).bind fun (dp,name) =>
      (s.ramfsCreate dp name .other []).map fun r => (r.1.release [dp] r.2).release [] dp
  | .symlink p d target path =>
    (s.place p d path).bind fun (dp,name) =>
      (s.ramfsCreate dp name .lnk target).map fun r => (r.1.release [dp] r.2).release [] dp
  | .link p d oldpath newpath =>
    (s.namei p d oldpath).bind fun ip =>
      if s.kind ip = some .dir then none
      else
        (s.place p d newpath).bind fun (dp,name) =>
          (s.dAdd dp name ip).map fun s => (s.release [ip] dp).release [] ip
  | .unlink p d path =>
    (s.place p d path).bind fun (dp,name) =>
      (s.dLookup dp name).bind fun ip =>
        if s.kind ip = some .dir then none
        else (s.dUnlink [dp] dp name).map fun s => s.release [] dp
  | .rmdir p d path =>
    (s.place p d path).bind fun (dp,name) =>
      (s.dLookup dp name).bind fun ip =>
        if s.kind ip ≠ some .dir ∨ ip = s.root ∨ s.isCwd ip ∨ s.dents ip ≠ [] then none
        else (s.dUnlink [dp] dp name).map fun s => s.release [] dp
  | .rename p d oldpath newpath =>
    (s.place p d oldpath).bind fun (oldDir,oldName) =>
      (s.place p d newpath).bind fun (newDir,newName) =>
        (s.ramfsRename oldDir oldName newDir newName).map fun s =>
          (s.release [oldDir] newDir).release [] oldDir
  | .open p d path =>
    (s.namei p d path).map fun ip =>
      { s with files := update s.files ip (s.files ip + 1) }
  | .close i =>
    if 0 < s.files i then
      some ({ s with files := update s.files i (s.files i - 1) }.release [] i)
    else none
  | .chdir p d path => (s.namei p d path).bind (s.setCwd p)
  | .fchdir p i => if 0 < s.files i then s.setCwd p i else none
  | .fork p q =>
    if s.cwd q = none then some { s with cwd := update s.cwd q (s.cwd p) } else none
  | .exit p =>
    (s.cwd p).map fun ip => { s with cwd := update s.cwd p none }.release [] ip

def call (s : Ram P) (op : FsOp P) : Option (Ram P × Unit) := (s.step op).map fun s => (s,())

end Ram

end TinyOs.Fs
