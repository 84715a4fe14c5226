import TinyOs.Mm.Mmap
import TinyOs.Printf

namespace TinyOs.Procfs

open List
open Function (update update_of_ne update_self)

def pad (width : Nat) (c : Char) (text : List Char) : List Char :=
  List.replicate (width - text.length) c ++ text

def printint (base width : Nat) (c : Char) (x : Nat) : List Char := pad width c (Nat.toDigits base x)

def dec (x : Nat) : List Char := printint 10 0 ' ' x

structure Fill where
  mem : Nat → Char
  len : Nat
  text : List Char

def snprintf (size : Nat) (f : Fill) (s : List Char) : Fill :=
  let cap := (size + word - f.len) % word
  let stored := s.take (cap - 1)
  let mem := fun a => if f.len ≤ a then stored.getD (a - f.len) (f.mem a) else f.mem a
  ⟨if 0 < cap then update mem (f.len + stored.length) '\x00' else mem,f.len + s.length,
    f.text ++ stored⟩

abbrev Piece := Bool × List Char

def addPiece (size : Nat) (f : Fill) (p : Piece) : Fill :=
  if p.1 ∧ size - 1 ≤ f.len then f else snprintf size f p.2

structure ProcSnap where
  pid : Nat
  ppid : Nat
  stateChar : Char
  stateDesc : List Char
  name : List Char
  userBase : Nat
  brk : Nat
  brkStart : Nat
  vmsizeKb : Nat
  vmrssKb : Nat
  vmas : Nat → Vma
  hasUserMm : Bool

def procPidStatus (s : ProcSnap) : List Piece :=
  [(false,"Name:\t".toList ++ s.name ++ "\nState:\t".toList ++ [s.stateChar] ++ " (".toList ++
    s.stateDesc ++ ")\nTgid:\t".toList ++ dec s.pid ++ "\nPid:\t".toList ++ dec s.pid ++
    "\nPPid:\t".toList ++ dec s.ppid ++ "\nVmSize:\t".toList ++ printint 10 8 ' ' s.vmsizeKb ++
    " kB\nVmRSS:\t".toList ++ printint 10 8 ' ' s.vmrssKb ++ " kB\n".toList)]

def procPidCmdline (s : ProcSnap) : List Piece := [(false,s.name ++ ['\n'])]

def procPidStat (s : ProcSnap) : List Piece :=
  [(false,dec s.pid ++ " (".toList ++ s.name ++ ") ".toList ++ [s.stateChar,' '] ++ dec s.ppid ++
    " 0 0 0 0 0 0 0 0 0 0 0 0 0 0 0 0 0 0 ".toList ++ dec s.vmsizeKb ++ [' '] ++ dec s.vmrssKb ++
    ['\n'])]

def mapsPerm (prot : Nat) : List Char :=
  [if prot &&& protRead ≠ 0 then 'r' else '-',if prot &&& protWrite ≠ 0 then 'w' else '-',
    if prot &&& protExec ≠ 0 then 'x' else '-','p']

def mapsLine (start stop prot : Nat) (tag : String) : Piece :=
  (true,printint 16 8 '0' start ++ ['-'] ++ printint 16 8 '0' stop ++ [' '] ++ mapsPerm prot ++
    " 00000000 00:00 0\t\t".toList ++ tag.toList ++ ['\n'])

def procPidMaps (s : ProcSnap) : List Piece :=
  if s.hasUserMm = false ∧ s.brk ≤ s.userBase then []
  else
    (if s.userBase < s.brkStart then
      [mapsLine s.userBase s.brkStart (protRead ||| protExec) "[text]"] else []) ++
    (if s.brkStart < s.brk then [mapsLine s.brkStart s.brk (protRead ||| protWrite) "[heap]"]
    else if s.userBase < s.brk ∧ s.brkStart ≤ s.userBase then
      [mapsLine s.userBase s.brk (protRead ||| protWrite) "[heap]"] else []) ++
    ((List.range nvma).filter fun i => (s.vmas i).used).map (fun i =>
      mapsLine (s.vmas i).start (s.vmas i).stop (s.vmas i).prot "") ++
    [mapsLine userStackBottom userStack (protRead ||| protWrite) "[stack]"]

structure Mount where
  used : Bool
  dev : List Char
  dir : List Char
  type : Option (List Char)

def orElse (s : List Char) (t : String) : List Char := if s = [] then t.toList else s

def mountsProcShow (mounts : List Mount) : List Piece :=
  [(false,"none / ramfs rw 0 0\n".toList),(true,"none /proc proc rw 0 0\n".toList)] ++
    (mounts.filter (·.used)).map fun m =>
      (true,orElse m.dev "none" ++ [' '] ++ orElse m.dir "/" ++ [' '] ++
        m.type.getD "unknown".toList ++ " rw 0 0\n".toList)

def devicesAdd (d : Nat × List Char) : Piece := (true,printint 10 3 ' ' d.1 ++ [' '] ++ d.2 ++ ['\n'])

def devicesShow (chr blk : List (Nat × List Char)) : List Piece :=
  [(false,"Character devices:\n".toList)] ++ chr.map devicesAdd ++
    [(false,"\nBlock devices:\n".toList)] ++ blk.map devicesAdd

inductive File where
  | status (s : ProcSnap)
  | cmdline (s : ProcSnap)
  | stat (s : ProcSnap)
  | maps (s : ProcSnap)
  | mounts (tbl : List Mount)
  | devices (chr blk : List (Nat × List Char))

namespace File

def pieces : File → List Piece
  | status s => procPidStatus s
  | cmdline s => procPidCmdline s
  | stat s => procPidStat s
  | maps s => procPidMaps s
  | mounts tbl => mountsProcShow tbl
  | devices chr blk => devicesShow chr blk

def bufSize : File → Nat
  | maps _ => 2048
  | _ => 1024

def shown (file : File) (mem : Nat → Char) : Fill :=
  file.pieces.foldl (addPiece file.bufSize) ⟨mem,0,[]⟩

end File

def procCopyBuf (f : Fill) (off n : Nat) : List Char :=
  if f.len ≤ off then []
  else
    let n := if f.len < (off + n) % word then f.len - off else n
    (List.range n).map fun i => f.mem (off + i)

def readChunk : Nat := 128

def Fits (size : Nat) : Nat → List Piece → Prop
  | _, [] => True
  | len, p :: ps =>
    if p.1 ∧ size - 1 ≤ len then Fits size len ps
    else len + p.2.length < size ∧ Fits size (len + p.2.length) ps

variable {size : Nat} {f : Fill} {p : Piece}

structure Fill.Exact (size : Nat) (f : Fill) : Prop where
  len : f.len = f.text.length
  lt : f.len < size
  mem : ∀ i < f.len, f.text[i]? = some (f.mem i)

theorem snprintf_vsnprintf {fmt s : List Char} {ap : List Printf.Arg} (hto : ∀ {σ : Type}
      (put : σ → Char → σ) arg, Printf.vprintfTo put arg fmt ap = some (s.foldl put arg))
    (hlen : s.length < 2 ^ 31) (size : Nat) (f : Fill) :
    Printf.vsnprintf (some fun i => f.mem (f.len + i)) ((size + word - f.len) % word) fmt ap =
      some (some fun i => (snprintf size f s).mem (f.len + i),(s.length : Int)) := by
  obtain ⟨buf,hcall,hbuf⟩ := Printf.vsnprintf_text hto hlen (fun i => f.mem (f.len + i))
    ((size + word - f.len) % word)
  suffices hsame : buf = fun i => (snprintf size f s).mem (f.len + i) by rw [hcall,hsame]
  funext i
  rw [hbuf i,snprintf]
  generalize (size + word - f.len) % word = cap
  have hread : ∀ d, (s.take (cap - 1)).getD i d =
      if i < min s.length (cap - 1) then s.getD i d else d := by
    intro d
    rw [getD_eq_getElem?_getD,getElem?_take,getD_eq_getElem?_getD]
    by_cases hi : i < cap - 1
    · by_cases hs : i < s.length <;> simp [hi,hs]
    · simp [hi]
  by_cases hcap : 0 < cap
  · simp only [hcap,true_and,if_true,length_take,min_comm (cap - 1)]
    by_cases hi : i = min s.length (cap - 1)
    · rw [hi,update_self,if_neg (lt_irrefl _),if_pos rfl]
    · rw [update_of_ne (by omega),if_pos (Nat.le_add_right _ _),Nat.add_sub_cancel_left,hread,if_neg hi]
  · simp only [hcap,false_and,if_false,if_pos (Nat.le_add_right f.len i),Nat.add_sub_cancel_left,
      hread]

theorem capacity (hsize : size < word) (hlen : f.len < size) :
    (size + word - f.len) % word = size - f.len := by
  rw [show size + word - f.len = size - f.len + word by omega,Nat.add_mod_right,
    Nat.mod_eq_of_lt (by omega)]

theorem Fill.Exact.snprintf (h : f.Exact size) (hsize : size < word) {s : List Char}
    (hs : f.len + s.length < size) : (snprintf size f s).Exact size := by
  have hstored : s.take (size - f.len - 1) = s := take_of_length_le (by omega)
  simp only [Procfs.snprintf,capacity hsize h.lt,hstored,if_pos (Nat.sub_pos_of_lt h.lt)]
  have hlen := h.len
  refine ⟨by rw [length_append,hlen],hs,fun i hi => ?_⟩
  simp only [update_of_ne (ne_of_lt hi)]
  replace hi : i < f.len + s.length := hi
  split
  · rw [getElem?_append_right (by omega),← h.len,getD_eq_getElem?_getD,
      getElem?_eq_getElem (by omega)]
    rfl
  · rw [getElem?_append_left (by omega),h.mem i (by omega)]

theorem addPiece_gap (size : Nat) (f : Fill) (p : Piece) :
    f.len + (addPiece size f p).text.length ≤ (addPiece size f p).len + f.text.length := by
  rw [addPiece]
  split
  · exact le_refl _
  · simp only [snprintf,length_append,length_take]
    omega

theorem foldl_gap (size : Nat) (ps : List Piece) (f : Fill) :
    f.len + (ps.foldl (addPiece size) f).text.length ≤
      (ps.foldl (addPiece size) f).len + f.text.length := by
  induction ps generalizing f with
  | nil => exact le_refl _
  | cons p ps ih =>
    have hhead := addPiece_gap size f p
    have htail := ih (addPiece size f p)
    rw [foldl_cons]
    omega

theorem foldl_fits (hsize : size < word) (ps : List Piece) (h : f.Exact size) :
    (Fits size f.len ps → (ps.foldl (addPiece size) f).Exact size) ∧
      ((ps.foldl (addPiece size) f).len ≤ (ps.foldl (addPiece size) f).text.length →
        Fits size f.len ps) := by
  induction ps generalizing f with
  | nil => exact ⟨fun _ => h,fun _ => trivial⟩
  | cons p ps ih =>
    rw [foldl_cons,Fits,addPiece]
    split
    · exact ih h
    by_cases hfit : f.len + p.2.length < size
    · rw [and_iff_right hfit]
      exact ih (h.snprintf hsize hfit)
    refine ⟨fun hfits => absurd hfits.1 hfit,fun hend => ?_⟩
    have hlt : (snprintf size f p.2).text.length < (snprintf size f p.2).len := by
      simp only [snprintf,capacity hsize h.lt,length_append,length_take]
      have := h.len
      have := h.lt
      omega
    have := foldl_gap size ps (snprintf size f p.2)
    omega

theorem Fill.Exact.read (h : f.Exact size) (hsize : size ≤ 2048) (off : Nat) {n : Nat}
    (hn : n ≤ readChunk) : procCopyBuf f off n = (f.text.drop off).take n := by
  have hlt := h.lt
  rw [procCopyBuf]
  split
  · rw [drop_eq_nil_of_le (h.len ▸ ‹_›),take_nil]
  have hword : word = 4294967296 := rfl
  have hchunk : readChunk = 128 := rfl
  simp only [Nat.mod_eq_of_lt (show off + n < word by omega)]
  have hmin : (if f.len < off + n then f.len - off else n) = min n (f.len - off) := by
    split <;> omega
  rw [hmin]
  refine ext_getElem? fun i => ?_
  rw [getElem?_map,getElem?_take,getElem?_drop]
  by_cases hi : i < min n (f.len - off)
  · rw [getElem?_range hi,if_pos (by omega),h.mem _ (by omega)]
    rfl
  rw [getElem?_eq_none (by rw [length_range]; omega)]
  split
  · rw [getElem?_eq_none (by rw [← h.len]; omega)]
    rfl
  · rfl

theorem File.bufSize_le (file : File) : 0 < file.bufSize ∧ file.bufSize ≤ 2048 := by
  cases file <;> simp [bufSize]

theorem proc_read_exact_iff (file : File) (mem : Nat → Char) :
    (∀ off n, n ≤ readChunk → procCopyBuf (file.shown mem) off n =
        ((file.shown mem).text.drop off).take n) ↔ Fits file.bufSize 0 file.pieces := by
  obtain ⟨hpos,hsize⟩ := file.bufSize_le
  have hword : word = 4294967296 := rfl
  have hstart : (Fill.mk mem 0 []).Exact file.bufSize := ⟨rfl,hpos,fun i hi => by cases hi⟩
  obtain ⟨hexact,hfits⟩ := foldl_fits (by omega) file.pieces hstart
  refine ⟨fun hread => hfits ?_,fun h off n hn => (hexact h).read hsize off hn⟩
  change (file.shown mem).len ≤ (file.shown mem).text.length
  by_contra hlong
  have hbyte := hread (file.shown mem).text.length 1 (by decide)
  rw [drop_length,take_nil,procCopyBuf,if_neg hlong,map_eq_nil_iff,range_eq_nil] at hbyte
  split at hbyte
  · exact hlong (Nat.le_of_sub_eq_zero hbyte)
  · exact absurd hbyte one_ne_zero

def crowded : ProcSnap where
  pid := 3
  ppid := 1
  stateChar := 'S'
  stateDesc := "sleeping".toList
  name := "sh".toList
  userBase := 0x400000
  brkStart := 0x402000
  brk := 0x404000
  vmsizeKb := 336
  vmrssKb := 80
  vmas := fun i => ⟨true,0x500000 + i * 0x2000,0x501000 + i * 0x2000,3,0⟩
  hasUserMm := true

theorem proc_maps_leaks_stack :
    procCopyBuf ((File.maps crowded).shown fun _ => '!') 2048 22 = List.replicate 22 '!' ∧
      ((File.maps crowded).shown fun _ => '!').text.length = 2047 := by
  decide +kernel

end TinyOs.Procfs
