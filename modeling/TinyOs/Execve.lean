import TinyOs.Mm.Fault

namespace TinyOs

def nname : Nat := 256

def maxArg : Nat := 32

def maxEnv : Nat := 32

def execMaxFile : Nat := userHeapTop - userLoad

def elfMagic : Nat := 0x464C457F

def etExec : Nat := 2

def em386 : Nat := 3

def elfProgLoad : Nat := 1

def elfProgFlagWrite : Nat := 2

def sizeofElfhdr : Nat := 52

def sizeofProghdr : Nat := 32

def atNull : Nat := 0

def byteAt (blob : List UInt8) (i : Nat) : Nat := (blob.getD i 0).toNat

def u16At (blob : List UInt8) (i : Nat) : Nat := byteAt blob i + byteAt blob (i + 1) * 2 ^ 8

def u32At (blob : List UInt8) (i : Nat) : Nat := u16At blob i + u16At blob (i + 2) * 2 ^ 16

def le32 (n : Nat) : List UInt8 :=
  [UInt8.ofNat n,UInt8.ofNat (n / 2 ^ 8),UInt8.ofNat (n / 2 ^ 16),UInt8.ofNat (n / 2 ^ 24)]

structure Elfhdr where
  magic : Nat
  type : Nat
  machine : Nat
  entry : Nat
  phoff : Nat
  phentsize : Nat
  phnum : Nat
  deriving Repr

structure Proghdr where
  type : Nat
  off : Nat
  vaddr : Nat
  filesz : Nat
  memsz : Nat
  flags : Nat
  deriving Repr

def elfhdr (blob : List UInt8) : Elfhdr where
  magic := u32At blob 0
  type := u16At blob 16
  machine := u16At blob 18
  entry := u32At blob 24
  phoff := u32At blob 28
  phentsize := u16At blob 42
  phnum := u16At blob 44

def proghdr (blob : List UInt8) (at_ : Nat) : Proghdr where
  type := u32At blob at_
  off := u32At blob (at_ + 4)
  vaddr := u32At blob (at_ + 8)
  filesz := u32At blob (at_ + 16)
  memsz := u32At blob (at_ + 20)
  flags := u32At blob (at_ + 24)

def isElf (blob : List UInt8) : Bool :=
  decide (sizeofElfhdr ≤ blob.length) && (elfhdr blob).magic == elfMagic

def loaduvmPage (va : Nat) (src : List UInt8) (a : Nat) (s : Space) : Space × Bool :=
  match s.mapNewPage a true with
  | (s,none) => (s,false)
  | (s,some f) =>
    ({ s with phys := s.phys.writeBytes f 0 ((src.drop (a - va)).take pgSize) },true)

def loaduvm (va : Nat) (src : List UInt8) (s : Space) : Space × Bool :=
  if src = [] ∨ va % pgSize ≠ 0 then (s,false)
  else if va < userLoad ∨ userEnd < (va + src.length) % word then (s,false)
  else Loop.forEach (loaduvmPage va src) (pageRange va (va + src.length)) s

def loaduvmSegPage (va filesz : Nat) (src : List UInt8) (w : Bool) (i : Nat) (s : Space) :
    Space × Bool :=
  let r := match s.pd.walkaddr i with
    | some f => (s,some f)
    | none => s.mapNewPage i w
  match r with
  | (s,none) => (s,false)
  | (s,some f) =>
    let lo := max va i
    let hi := min (va + filesz) (i + pgSize)
    if lo < hi then
      ({ s with phys := s.phys.writeBytes f (lo - i) ((src.drop (lo - va)).take (hi - lo)) },true)
    else (s,true)

def loaduvmSeg (va : Nat) (src : List UInt8) (filesz memsz : Nat) (w : Bool) (s : Space) :
    Space × Bool :=
  if memsz < filesz then (s,false)
  else if memsz = 0 then (s,true)
  else if va < userLoad ∨ userEnd < (va + memsz) % word then (s,false)
  else
    Loop.forEach (loaduvmSegPage va filesz src w)
      (pageRange (pgRoundDown va) ((va + memsz) % word)) s

def execLoadSegment (blob : List UInt8) (ph : Proghdr) (sb : Space × Nat) : (Space × Nat) × Bool :=
  if ph.type ≠ elfProgLoad ∨ ph.memsz = 0 then (sb,true)
  else if ph.memsz < ph.filesz then (sb,false)
  else if blob.length < ph.off ∨ blob.length - ph.off < ph.filesz then (sb,false)
  else if ph.vaddr < userLoad then (sb,false)
  else
    let segEnd := (ph.vaddr + ph.memsz) % word
    if segEnd < ph.vaddr ∨ userHeapTop < segEnd then (sb,false)
    else
      match loaduvmSeg ph.vaddr (blob.drop ph.off) ph.filesz ph.memsz
          (ph.flags &&& elfProgFlagWrite != 0) sb.1 with
      | (s,false) => ((s,sb.2),false)
      | (s,true) => ((s,max sb.2 segEnd),true)

def execLoadElf (blob : List UInt8) (s : Space) : Space × Option (Nat × Nat) :=
  let eh := elfhdr blob
  let phEnd := (eh.phoff + eh.phnum * sizeofProghdr) % word
  if eh.magic ≠ elfMagic ∨ eh.type ≠ etExec ∨ eh.machine ≠ em386 then (s,none)
  else if eh.phentsize ≠ sizeofProghdr ∨ eh.phnum = 0 then (s,none)
  else if blob.length ≤ eh.phoff ∨ blob.length < phEnd ∨ phEnd < eh.phoff then (s,none)
  else
    match Loop.forEach (fun i => execLoadSegment blob (proghdr blob (eh.phoff + i * sizeofProghdr)))
        (List.range eh.phnum) (s,userLoad) with
    | ((s,_),false) => (s,none)
    | ((s,brk),true) =>
      if eh.entry < userLoad ∨ userHeapTop ≤ eh.entry then (s,none)
      else (s,some (eh.entry,brk))

def execMapStackPage (va : Nat) (s : Space) : Space × Bool :=
  match s.mapNewPage va true with
  | (s,none) => (s,false)
  | (s,some _) => (s,true)

def execMapStack (s : Space) : Space × Bool :=
  Loop.forEach execMapStackPage (pageRange userStackBottom userStack) s

structure Pushed where
  ctx : Ctx
  sp : Nat
  ptrs : List Nat

def pushString (str : List UInt8) (st : Pushed) : Pushed × Bool :=
  let len := str.length + 1
  if nname < len ∨ st.sp < userStackBottom + len then (st,false)
  else
    match st.ctx.copyout false (st.sp - len) (str ++ [0]) with
    | (x,false) => ({ st with ctx := x, sp := st.sp - len },false)
    | (x,true) => (⟨x,st.sp - len,st.ptrs ++ [st.sp - len]⟩,true)

def copyoutAll (x : Ctx) (parts : List (Nat × List UInt8)) : Ctx × Bool :=
  Loop.forEach (fun part x => x.copyout false part.1 part.2) parts x

def execStackArgv (x : Ctx) (name : List UInt8) (argv envp : List (List UInt8)) :
    Ctx × Option Nat :=
  if maxArg < argv.length ∨ maxEnv < envp.length then (x,none)
  else
    let argv := if argv = [] then [name] else argv
    match Loop.forEach pushString argv ⟨x,userStack,[]⟩ with
    | (a,false) => (a.ctx,none)
    | (a,true) =>
      match Loop.forEach pushString envp ⟨a.ctx,a.sp,[]⟩ with
      | (e,false) => (e.ctx,none)
      | (e,true) =>
        let argc := argv.length
        let envc := envp.length
        let tab := (1 + (argc + 1) + (envc + 1) + 2) * 4
        if e.sp < userStackBottom + tab then (e.ctx,none)
        else
          let sp := (e.sp - tab) / 16 * 16
          if sp < userStackBottom then (e.ctx,none)
          else
            match copyoutAll e.ctx [(sp,le32 argc),(sp + 4,(a.ptrs ++ [0]).flatMap le32),
                (sp + 4 + (argc + 1) * 4,(e.ptrs ++ [0]).flatMap le32),
                (sp + 4 + (argc + 1 + envc + 1) * 4,[atNull,0].flatMap le32)] with
            | (x,false) => (x,none)
            | (x,true) => (x,some sp)

end TinyOs
