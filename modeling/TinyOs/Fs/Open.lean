import TinyOs.Fs.RamfsRun

namespace TinyOs

open Function (update update_eq_self update_eq_self_iff update_idem update_of_ne update_self)
open Fs List Option

namespace Open

abbrev nFile : Nat := 64

abbrev nOfile : Nat := 256

def oWronly : UInt32 := 0x001

def oRdwr : UInt32 := 0x002

def oAccmode : UInt32 := 0x003

def oCreate : UInt32 := 0x200

def oAppend : UInt32 := 0x400

def oNonblock : UInt32 := 0x800

def oExcl : UInt32 := 0x1000

def oTrunc : UInt32 := 0x2000

def defFileMode : UInt32 := 0o644

def has (flags bits : UInt32) : Bool := flags &&& bits ≠ 0

def truncating (flags : UInt32) : Bool := has flags oTrunc && has flags (oWronly ||| oRdwr)

inductive Leaf where
  | file
  | chr
  | blk
  | fifo
  deriving DecidableEq

inductive FdType where
  | none
  | inode
  | char
  | block
  deriving DecidableEq

structure File where
  ref : Nat
  type : FdType
  readable : Bool
  writable : Bool
  flags : UInt32
  flock : Nat
  ip : Option Ino
  off : Nat

structure Sys (P : Type) where
  ram : Ram P
  leaf : Ino → Leaf
  readOnly : Ino → Bool
  mode : Ino → UInt32
  noMemory : Bool
  file : Fin nFile → File
  ofile : P → Fin nOfile → Option (Fin nFile)

inductive Call where
  | «open» (path : Path) (flags : UInt32)
  | creat (path : Path) (mode : UInt32)

def Call.path : Call → Path
  | .open path _ | .creat path _ => path

end Open

namespace Fs.Ram

variable {P : Type} [Fintype P] {s : Ram P} {i : Ino}

def Held (s : Ram P) (i : Ino) : Prop := s.referenced i ∨ i = s.root

theorem release_held (h : s.Held i) (busy : List Ino) : s.release busy i = s := by
  unfold release iput
  rw [if_pos (h.imp_right .inl)]

omit [Fintype P] in
theorem held_of_attached (h : s.view.Attached i) : s.Held i := by
  rcases h with hr | hp
  · exact .inr hr
  · obtain ⟨x,e,he,hei⟩ := View.exists_mem_of_links_pos hp
    exact .inl (.inr (.inr ⟨x,e,he,hei⟩))

omit [Fintype P] in
theorem Held.mono {t : Ram P} (h : s.Held i) (hfiles : ∀ j, s.files j ≤ t.files j)
    (hcwd : t.cwd = s.cwd) (hroot : t.root = s.root)
    (hdents : ∀ j, ∀ e ∈ s.dents j, e ∈ t.dents j) : t.Held i := by
  rcases h with (hf | ⟨p,hp⟩ | ⟨j,e,he,hei⟩) | hr
  · exact .inl (.inl (hf.trans_le (hfiles i)))
  · exact .inl (.inr (.inl ⟨p,by rw [hcwd]; exact hp⟩))
  · exact .inl (.inr (.inr ⟨j,e,hdents j e he,hei⟩))
  · exact .inr (hr.trans hroot.symm)

end Fs.Ram

namespace Open

variable {P : Type} [DecidableEq P] [Fintype P]

namespace Sys

def hold (s : Sys P) (ip : Ino) : Sys P :=
  { s with ram := { s.ram with files := update s.ram.files ip (s.ram.files ip + 1) } }

def iput (s : Sys P) (ip : Ino) : Sys P :=
  { s with
    ram := Ram.release { s.ram with files := update s.ram.files ip (s.ram.files ip - 1) } [] ip }

def fsNamei (s : Sys P) (p : P) (d : Nat) (path : Path) : Option (Sys P × Ino) :=
  (s.ram.namei p d path).map fun ip => (s.hold ip,ip)

def made (s : Sys P) (ram : Ram P) (ip : Ino) : Sys P :=
  { s with
    ram := ram
    leaf := update s.leaf ip .file
    readOnly := update s.readOnly ip false
    mode := update s.mode ip defFileMode }

def fsCreate (s : Sys P) (p : P) (d : Nat) (path : Path) : Sys P × Option Ino :=
  match s.ram.nameiParent p d path with
  | none => (s,none)
  | some (dp,name) =>
    match if s.readOnly dp || s.noMemory then none else s.ram.ramfsCreate dp name .other [] with
    | none => ({ s with ram := s.ram.release [] dp },none)
    | some (ram,ip) =>
      let t := (s.made ram ip).hold ip
      ({ t with ram := t.ram.release [] dp },some ip)

def regular (s : Sys P) (ip : Ino) : Prop := s.ram.kind ip = some .other ∧ s.leaf ip = .file

instance decidableRegular (s : Sys P) (ip : Ino) : Decidable (s.regular ip) :=
  inferInstanceAs (Decidable (_ ∧ _))

def cut (s : Sys P) (ip : Ino) : Sys P :=
  { s with ram := s.ram.modify ip fun nd => { nd with data := [] } }

def Truncatable (s : Sys P) (ip : Ino) : Prop := s.regular ip ∧ s.readOnly ip = false

instance decidableTruncatable (s : Sys P) (ip : Ino) : Decidable (s.Truncatable ip) :=
  inferInstanceAs (Decidable (_ ∧ _))

def fsTruncate (s : Sys P) (ip : Ino) : Option (Sys P) :=
  if s.Truncatable ip then some (s.cut ip) else none

def chmod (s : Sys P) (ip : Ino) (mode : UInt32) : Sys P :=
  { s with mode := update s.mode ip (mode &&& 0o7777) }

def filealloc (s : Sys P) : Option (Sys P × Fin nFile) :=
  ((List.finRange nFile).find? fun i => (s.file i).ref = 0).map fun i =>
    ({ s with file := update s.file i ⟨1,.none,false,false,0,0,none,0⟩ },i)

def fdalloc (s : Sys P) (p : P) (i : Fin nFile) : Option (Sys P × Fin nOfile) :=
  ((List.finRange nOfile).find? fun fd => (s.ofile p fd).isNone).map fun fd =>
    ({ s with ofile := update s.ofile p (update (s.ofile p) fd (some i)) },fd)

def fileclose (s : Sys P) (i : Fin nFile) : Sys P :=
  let f := s.file i
  if 1 < f.ref then { s with file := update s.file i { f with ref := f.ref - 1 } }
  else
    let t : Sys P :=
      { s with
        file := update s.file i { f with ref := f.ref - 1, type := .none, ip := none, flock := 0 } }
    if f.type = .none then t else f.ip.elim t t.iput

def install (s : Sys P) (p : P) (ip : Ino) (f : File) : Sys P × Option (Fin nOfile) :=
  match s.filealloc with
  | none => (s.iput ip,none)
  | some (s,i) =>
    match s.fdalloc p i with
    | none => ((s.fileclose i).iput ip,none)
    | some (s,fd) => ({ s with file := update s.file i f },some fd)

def finish (p : P) (f : Sys P → Ino → File) : Sys P × Option Ino → Sys P × Option (Fin nOfile)
  | (s,none) => (s,none)
  | (s,some ip) => s.install p ip (f s ip)

def openExisting (s : Sys P) (p : P) (d : Nat) (path : Path) (flags : UInt32) :
    Sys P × Option Ino :=
  match s.fsNamei p d path with
  | none => (s,none)
  | some (s,ip) =>
    if truncating flags ∧ s.regular ip then
      match s.fsTruncate ip with
      | none => (s.iput ip,none)
      | some s => (s,some ip)
    else (s,some ip)

def openInode (s : Sys P) (p : P) (d : Nat) (path : Path) (flags : UInt32) : Sys P × Option Ino :=
  if has flags oCreate then
    match s.fsCreate p d path with
    | (s,some ip) => (if truncating flags then (s.fsTruncate ip).getD s else s,some ip)
    | (s,none) => if has flags oExcl then (s,none) else s.openExisting p d path flags
  else s.openExisting p d path flags

def fdType (s : Sys P) (ip : Ino) : FdType :=
  if s.ram.kind ip = some .other then
    match s.leaf ip with
    | .chr => .char
    | .blk => .block
    | _ => .inode
  else .inode

def sysOpen (s : Sys P) (p : P) (d : Nat) (path : Path) (flags : UInt32) :
    Sys P × Option (Fin nOfile) :=
  finish p (fun s ip => ⟨1,s.fdType ip,!has flags oWronly,has flags oWronly || has flags oRdwr,
    flags &&& (oAccmode ||| oAppend ||| oNonblock),0,some ip,0⟩) (s.openInode p d path flags)

def creatInode (s : Sys P) (p : P) (d : Nat) (path : Path) (mode : UInt32) : Sys P × Option Ino :=
  match s.fsCreate p d path with
  | (s,some ip) => (s.chmod ip mode,some ip)
  | (s,none) =>
    match s.fsNamei p d path with
    | none => (s,none)
    | some (s,ip) =>
      match s.fsTruncate ip with
      | none => (s.iput ip,none)
      | some s => (s.chmod ip mode,some ip)

def sysCreat (s : Sys P) (p : P) (d : Nat) (path : Path) (mode : UInt32) :
    Sys P × Option (Fin nOfile) :=
  finish p (fun _ ip => ⟨1,.inode,false,true,oWronly,0,some ip,0⟩)
    (s.creatInode p d path mode)

def call (s : Sys P) (p : P) (d : Nat) : Call → Sys P × Option (Fin nOfile)
  | .open path flags => s.sysOpen p d path flags
  | .creat path mode => s.sysCreat p d path mode

def Unchanged (s t : Sys P) : Prop :=
  t.ram = s.ram ∧ t.mode = s.mode ∧ t.ofile = s.ofile ∧ ∀ i, (t.file i).ref = (s.file i).ref

def NoRoom (s : Sys P) (p : P) : Prop := (∀ i, (s.file i).ref ≠ 0) ∨ ∀ fd, (s.ofile p fd).isSome

def Creatable (s : Sys P) (p : P) (d : Nat) (path : Path) : Prop :=
  ∃ r ∈ s.ram.nameiParent p d path, s.readOnly r.1 = false ∧ s.noMemory = false ∧
    s.ram.kind r.1 = some .dir ∧ r.2 ≠ [] ∧ s.ram.dLookup r.1 r.2 = none ∧
    ∃ i, s.ram.node i = none

def Filled (s : Sys P) (ip : Ino) : Prop := ∃ nd ∈ s.ram.node ip, nd.data ≠ []

def Commits (s : Sys P) (p : P) (d : Nat) : Call → Prop
  | .open path flags =>
    has flags oCreate ∧ s.Creatable p d path ∨
      ¬ (has flags oCreate ∧ has flags oExcl) ∧ truncating flags ∧
        ∃ ip ∈ s.ram.namei p d path, s.Truncatable ip ∧ s.Filled ip
  | .creat path mode =>
    s.Creatable p d path ∨ ∃ ip ∈ s.ram.namei p d path, s.Truncatable ip ∧
        (s.Filled ip ∨ s.mode ip ≠ mode &&& 0o7777)

def Walks (s : Sys P) (p : P) (d : Nat) (path : Path) : Prop :=
  (∀ r ∈ s.ram.nameiParent p d path, s.ram.Held r.1) ∧ ∀ ip ∈ s.ram.namei p d path, s.ram.Held ip

end Sys

end Open

namespace Open.Sys

variable {P : Type} {s t u : Sys P} {p : P} {d : Nat} {path : Path} {ip : Ino}

theorem cut_node (s : Sys P) (ip j : Ino) : (s.cut ip).ram.node j =
    (s.ram.node j).map fun nd => if j = ip then { nd with data := [] } else nd := by
  simp only [cut,Ram.modify]
  by_cases hj : j = ip
  · simp only [hj,update_self,if_pos]
  · simp only [update_of_ne hj,if_neg hj,Option.map_id']

theorem cut_kind (s : Sys P) (ip j : Ino) : (s.cut ip).ram.kind j = s.ram.kind j := by
  rw [Ram.kind,cut_node]
  cases hn : s.ram.node j with
  | none => rw [Ram.kind,hn]; rfl
  | some nd => rw [Ram.kind,hn,map_some,map_some]; split <;> rfl

theorem cut_dents (s : Sys P) (ip j : Ino) : (s.cut ip).ram.dents j = s.ram.dents j := by
  rw [Ram.dents,cut_node]
  cases hn : s.ram.node j with
  | none => rw [Ram.dents,hn]; rfl
  | some nd => rw [Ram.dents,hn,map_some]; split <;> rfl

theorem cut_held (h : s.ram.Held ip) : (s.cut ip).ram.Held ip :=
  h.mono (fun _ => le_rfl) rfl rfl fun j e he => by rwa [cut_dents]

theorem hold_held {i : Ino} (h : s.ram.Held i) : (s.hold ip).ram.Held i := by
  refine h.mono (fun j => ?_) rfl rfl fun _ _ he => he
  simp only [hold]
  by_cases hj : j = ip
  · rw [hj,update_self]
    exact Nat.le_succ _
  · rw [update_of_ne hj]

theorem cut_eq_iff : (s.cut ip).ram = s.ram ↔ ¬ s.Filled ip := by
  constructor
  · rintro heq ⟨nd,hnd,hdata⟩
    have hnode := congrFun (congrArg Ram.node heq) ip
    rw [cut_node,mem_def.mp hnd,map_some,if_pos rfl,Option.some.injEq] at hnode
    exact hdata (congrArg Node.data hnode).symm
  intro hempty
  have hnode : (s.ram.node ip).map (fun nd => { nd with data := [] }) = s.ram.node ip := by
    cases hn : s.ram.node ip with
    | none => rfl
    | some nd =>
      have hdata : nd.data = [] := by
        by_contra hd
        exact hempty ⟨nd,hn,hd⟩
      rw [map_some,← hdata]
  simp only [cut,Ram.modify,hnode,update_eq_self]

theorem fsTruncate_hold : (s.hold ip).fsTruncate ip =
    if s.Truncatable ip then some ((s.cut ip).hold ip) else none := rfl

inductive Ready (s : Sys P) (commits : Prop) : Sys P × Option Ino → Prop
  | failed (h : ¬ commits) : Ready s commits (s,none)
  | ready {u : Sys P} {ip : Ino} (held : u.ram.Held ip) (file : u.file = s.file)
      (ofile : u.ofile = s.ofile) (h : commits ↔ ¬ (u.ram = s.ram ∧ u.mode = s.mode)) :
      Ready s commits (u.hold ip,some ip)

theorem Ready.congr {c c' : Prop} {r : Sys P × Option Ino} (h : Ready s c r) (hc : c ↔ c') :
    Ready s c' r := propext hc ▸ h

theorem Ready.created {c : Prop} (hc : c) (held : u.ram.Held ip) (file : u.file = s.file)
    (ofile : u.ofile = s.ofile) (hnone : s.ram.kind ip = none) (hkind : u.ram.kind ip ≠ none) :
    Ready s c (u.hold ip,some ip) := by
  refine .ready held file ofile ⟨fun _ heq => hkind ?_,fun _ => hc⟩
  rw [heq.1,hnone]

theorem alloc_node {r r' : Ram P} {type : FileType} {data : List UInt8}
    (h : r.ialloc type data = some (r',ip)) :
    r' = { r with node := update r.node ip (some ⟨type,[],none,data⟩) } := by
  obtain ⟨i,-,heq⟩ := map_eq_some_iff.mp h
  cases heq
  rfl

theorem ramfsCreate_isSome {r : Ram P} {dp : Ino} {name : Path} :
    (r.ramfsCreate dp name .other []).isSome ↔ r.kind dp = some .dir ∧ name ≠ [] ∧
      r.dLookup dp name = none ∧ ∃ i, r.node i = none := by
  unfold Ram.ramfsCreate
  by_cases hl : r.dLookup dp name = none
  · rw [if_pos hl]
    cases ha : r.ialloc .other [] with
    | none =>
      have hfull := find?_eq_none.mp (map_eq_none_iff.mp ha)
      simp only [bind_none,isSome_none,Bool.false_eq_true,false_iff]
      rintro ⟨-,-,-,i,hi⟩
      exact hfull i (mem_finRange i) (by rw [hi]; rfl)
    | some q =>
      obtain ⟨r',i⟩ := q
      obtain ⟨hfree,hview⟩ := Ram.ialloc_spec ha
      have hkind : r'.kind dp = some .dir ↔ r.kind dp = some .dir := by
        rw [show r'.kind = update r.kind i (some .other) from congrArg View.kind hview]
        by_cases hi : dp = i
        · rw [hi,update_self,hfree]
          decide
        · rw [update_of_ne hi]
      have hdents : r'.dents = r.dents := congrArg View.dents hview
      have hlook : r'.dLookup dp name = none := by
        rw [← hl,Ram.dLookup,Ram.dLookup,hdents]
        by_cases hk : r.kind dp = some .dir
        · rw [if_pos hk,if_pos (hkind.mpr hk)]
        · rw [if_neg hk,if_neg fun h => hk (hkind.mp h)]
      have hnode : r.node i = none := map_eq_none_iff.mp hfree
      simp only [bind_some,isSome_map,Ram.dAdd,hlook,hkind,hl]
      by_cases hg : r.kind dp = some .dir ∧ name ≠ []
      · have hfree : ∃ i, r.node i = none := ⟨i,hnode⟩
        simp [hg,hfree]
      · simp only [and_true,if_neg hg,isSome_none,Bool.false_eq_true,false_iff]
        exact fun h => hg ⟨h.1,h.2.1⟩
  · rw [if_neg hl]
    simp [hl]

theorem ramfsCreate_held {r r' : Ram P} {dp : Ino} {name : Path}
    (hc : r.ramfsCreate dp name .other [] = some (r',ip)) (hdp : r.Held dp) :
    r.kind ip = none ∧ r'.kind ip = some .other ∧ r'.Held ip ∧ r'.Held dp := by
  obtain ⟨r₁,ha,hadd⟩ := Ram.ramfsCreate_eq hc
  have hview := Ram.added_view ha hadd
  have hkind : r'.kind ip = some .other := by
    have : r'.kind = update r.kind ip (some .other) := congrArg View.kind hview
    rw [this,update_self]
  have hdents : r'.dents = update r.dents dp ((name.take (dirSiz - 1),ip) :: r.dents dp) :=
    congrArg View.dents hview
  have hrest : r'.files = r.files ∧ r'.cwd = r.cwd ∧ r'.root = r.root := by
    rw [alloc_node ha] at hadd
    unfold Ram.dAdd at hadd
    split at hadd
    · cases hadd
      exact ⟨rfl,rfl,rfl⟩
    · cases hadd
  refine ⟨(Ram.ialloc_spec ha).1,hkind,.inl (.inr (.inr ⟨dp,(name.take (dirSiz - 1),ip),?_,rfl⟩)),
    hdp.mono (fun j => (congrFun hrest.1 j).ge) hrest.2.1 hrest.2.2 fun j e he => ?_⟩
  · rw [hdents,update_self]
    exact mem_cons_self
  rw [hdents]
  by_cases hj : j = dp
  · rw [hj,update_self]
    rw [hj] at he
    exact mem_cons_of_mem _ he
  · rwa [update_of_ne hj]

theorem walks_of_tree (h : s.ram.view.Tree) (p : P) (d : Nat) (path : Path) : s.Walks p d path :=
  ⟨fun _ hr => Ram.held_of_attached (h.nameiParent_dir hr).2,
    fun _ hip => Ram.held_of_attached (h.namei_attached hip)⟩

variable [Fintype P]

theorem iput_hold (h : s.ram.Held ip) : (s.hold ip).iput ip = s := by
  have hfiles : ∀ f : Ino → Nat,
      update (update f ip (f ip + 1)) ip (update f ip (f ip + 1) ip - 1) =
        f := by
    intro f
    rw [update_self,update_idem,Nat.add_sub_cancel,update_eq_self]
  simp only [hold,iput,hfiles]
  rw [Ram.release_held h]

theorem fsCreate_spec (h : ∀ r ∈ s.ram.nameiParent p d path, s.ram.Held r.1) :
    ¬ s.Creatable p d path ∧ s.fsCreate p d path = (s,none) ∨
      s.Creatable p d path ∧ ∃ r ip, s.fsCreate p d path = ((s.made r ip).hold ip,some ip) ∧
        r.Held ip ∧ s.ram.kind ip = none ∧ r.kind ip = some .other := by
  unfold fsCreate
  cases hnp : s.ram.nameiParent p d path with
  | none =>
    refine .inl ⟨?_,rfl⟩
    rintro ⟨r,hr,-⟩
    rw [hnp] at hr
    cases hr
  | some r =>
    obtain ⟨dp,name⟩ := r
    have hdp := h _ hnp
    have hput : { s with ram := s.ram.release [] dp } = s := by rw [Ram.release_held hdp]
    have hiff : s.Creatable p d path ↔ (s.readOnly dp = false ∧ s.noMemory = false) ∧
        (s.ram.ramfsCreate dp name .other []).isSome := by
      rw [ramfsCreate_isSome,Creatable,hnp]
      simp only [mem_def,Option.some.injEq,exists_eq_left',and_assoc]
    rw [hiff]
    dsimp only
    by_cases hno : (s.readOnly dp || s.noMemory) = true
    · rw [if_pos hno,hput]
      refine .inl ⟨?_,rfl⟩
      rintro ⟨⟨hro,hmem⟩,-⟩
      rw [hro,hmem] at hno
      cases hno
    rw [if_neg hno]
    have hyes : s.readOnly dp = false ∧ s.noMemory = false := by simpa using hno
    cases hc : s.ram.ramfsCreate dp name .other [] with
    | none =>
      refine .inl ⟨fun hsome => ?_,by rw [hput]⟩
      cases hsome.2
    | some r =>
      obtain ⟨r,ip⟩ := r
      obtain ⟨hnone,hkind,hip,hdp'⟩ := ramfsCreate_held hc hdp
      refine .inr ⟨⟨hyes,rfl⟩,r,ip,?_,hip,hnone,hkind⟩
      dsimp only
      rw [Ram.release_held (hold_held (s := s.made r ip) hdp')]

theorem openExisting_ready (h : ∀ ip ∈ s.ram.namei p d path, s.ram.Held ip) (flags : UInt32) :
    Ready s (truncating flags ∧ ∃ ip ∈ s.ram.namei p d path, s.Truncatable ip ∧ s.Filled ip)
      (s.openExisting p d path flags) := by
  unfold openExisting fsNamei
  cases hn : s.ram.namei p d path with
  | none => exact .failed fun hc => by obtain ⟨-,ip,hip,-⟩ := hc; cases hip
  | some ip =>
    have hip := h ip hn
    have hone : (∃ i ∈ some ip, s.Truncatable i ∧ s.Filled i) ↔ s.Truncatable ip ∧ s.Filled ip := by
      simp
    rw [hone]
    dsimp only [map_some]
    rw [fsTruncate_hold]
    split
    · rename_i htr
      by_cases ht : s.Truncatable ip
      · rw [if_pos ht]
        refine .ready (cut_held hip) rfl rfl ?_
        simp only [htr.1,ht,true_and,cut_eq_iff]
        simp [cut]
      · rw [if_neg ht,iput_hold hip]
        exact .failed fun hc => ht hc.2.1
    · rename_i htr
      refine .ready hip rfl rfl ⟨fun hc => absurd ⟨hc.1,hc.2.1.1⟩ htr,fun hc => absurd ⟨rfl,rfl⟩ hc⟩

theorem openInode_ready (h : s.Walks p d path) (flags : UInt32) :
    Ready s (s.Commits p d (.open path flags)) (s.openInode p d path flags) := by
  unfold openInode Commits
  have hexists := openExisting_ready h.2 flags
  by_cases hcr : has flags oCreate = true
  · rw [if_pos hcr]
    simp only [hcr,true_and]
    rcases fsCreate_spec h.1 with ⟨hno,heq⟩ | ⟨hyes,r,ip,heq,held,hnone,hkind⟩
    · rw [heq]
      dsimp only
      simp only [hno,false_or]
      split
      · rename_i hex
        exact .failed fun hc => hc.1 hex
      · rename_i hex
        exact hexists.congr ⟨fun hc => ⟨hex,hc⟩,And.right⟩
    rw [heq]
    dsimp only
    rw [fsTruncate_hold]
    have hlive : (s.made r ip).ram.kind ip ≠ none := by
      change r.kind ip ≠ none
      rw [hkind]
      decide
    split
    · split
      · refine .created (.inl hyes) (u := (s.made r ip).cut ip) (cut_held held) rfl rfl hnone ?_
        rwa [cut_kind]
      · exact .created (u := s.made r ip) (.inl hyes) held rfl rfl hnone hlive
    · exact .created (u := s.made r ip) (.inl hyes) held rfl rfl hnone hlive
  · rw [if_neg hcr]
    refine hexists.congr ⟨fun hc => .inr ⟨fun h => hcr h.1,hc⟩,fun hc => ?_⟩
    exact hc.elim (fun h => absurd h.1 hcr) And.right

theorem creatInode_ready (h : s.Walks p d path) (mode : UInt32) :
    Ready s (s.Commits p d (.creat path mode)) (s.creatInode p d path mode) := by
  unfold creatInode Commits
  rcases fsCreate_spec h.1 with ⟨hno,heq⟩ | ⟨hyes,r,ip,heq,held,hnone,hkind⟩
  · rw [heq]
    simp only [hno,false_or,fsNamei]
    cases hn : s.ram.namei p d path with
    | none => exact .failed fun hc => by obtain ⟨ip,hip,-⟩ := hc; cases hip
    | some ip =>
      have hip := h.2 ip hn
      dsimp only [map_some]
      rw [fsTruncate_hold]
      by_cases ht : s.Truncatable ip
      · rw [if_pos ht]
        refine .ready (u := (s.cut ip).chmod ip mode) (cut_held hip) rfl rfl ?_
        change _ ↔ ¬ ((s.cut ip).ram = s.ram ∧ update s.mode ip (mode &&& 0o7777) = s.mode)
        rw [cut_eq_iff,update_eq_self_iff]
        simp only [mem_def,Option.some.injEq,exists_eq_left',ht,true_and,not_and_or,not_not,ne_comm]
      · rw [if_neg ht]
        dsimp only
        rw [iput_hold hip]
        exact .failed fun hc => by obtain ⟨i,hi,hti,-⟩ := hc; cases hi; exact ht hti
  · rw [heq]
    refine .created (u := (s.made r ip).chmod ip mode) (.inl hyes) held rfl rfl hnone ?_
    change r.kind ip ≠ none
    rw [hkind]
    decide

variable [DecidableEq P]

theorem install_spec (p : P) (ip : Ino) (f : File) : ((s.install p ip f).2 = none ↔ s.NoRoom p) ∧
      ((s.install p ip f).2 = none → Unchanged (s.iput ip) (s.install p ip f).1) := by
  unfold install
  cases hf : s.filealloc with
  | none =>
    have hfull := find?_eq_none.mp (map_eq_none_iff.mp hf)
    refine ⟨⟨fun _ => .inl fun i => by simpa using hfull i (mem_finRange i),fun _ => rfl⟩,?_⟩
    exact fun _ => ⟨rfl,rfl,rfl,fun _ => rfl⟩
  | some r =>
    obtain ⟨i,hi,rfl⟩ := map_eq_some_iff.mp hf
    have hfree : (s.file i).ref = 0 := by simpa using find?_some hi
    dsimp only
    obtain ⟨t,ht⟩ : ∃ t : Sys P, t = { s with
        file := update s.file i ⟨1,.none,false,false,0,0,none,0⟩ } := ⟨_,rfl⟩
    rw [← ht]
    cases hd : t.fdalloc p i with
    | none =>
      have hfull := find?_eq_none.mp (map_eq_none_iff.mp hd)
      rw [ht] at hfull
      refine ⟨⟨fun _ => .inr fun fd => ?_,fun _ => rfl⟩,fun _ => ?_⟩
      · simpa [isSome_iff_ne_none] using hfull fd (mem_finRange fd)
      rw [ht]
      simp only [fileclose,update_self,lt_irrefl,if_false,if_true,iput]
      refine ⟨rfl,rfl,rfl,fun j => ?_⟩
      dsimp only
      by_cases hj : j = i
      · rw [hj,update_self,hfree]
      · rw [update_of_ne hj,update_of_ne hj]
    | some q =>
      obtain ⟨fd,hfd,rfl⟩ := map_eq_some_iff.mp hd
      have hempty : (s.ofile p fd).isNone := by
        rw [ht] at hfd
        simpa using find?_some hfd
      dsimp only
      refine ⟨⟨fun h => (by cases h),?_⟩,fun h => (by cases h)⟩
      rintro (hno | hno)
      · exact absurd hfree (hno i)
      · have := hno fd
        rw [isNone_iff_eq_none] at hempty
        rw [hempty] at this
        cases this

theorem Ready.unchanged_iff {c : Prop} {r : Sys P × Option Ino} (h : Ready s c r)
    (f : Sys P → Ino → File) :
    ((finish p f r).2 = none → s.Unchanged (finish p f r).1) ↔ ¬ (s.NoRoom p ∧ c) := by
  cases h with
  | failed hc =>
    exact ⟨fun _ hn => hc hn.2,fun _ _ => ⟨rfl,rfl,rfl,fun _ => rfl⟩⟩
  | @ready u ip held file ofile hiff =>
    obtain ⟨hnone,hun⟩ := install_spec (s := u.hold ip) p ip (f (u.hold ip) ip)
    rw [iput_hold held] at hun
    have hroom : (u.hold ip).NoRoom p ↔ s.NoRoom p := by
      simp only [NoRoom,hold,file,ofile]
    rw [hroom] at hnone
    unfold finish
    rw [hiff,not_and,not_not]
    refine ⟨fun h hno => ?_,fun h hfail => ?_⟩
    · have hres := hun (hnone.mpr hno)
      have hs := h (hnone.mpr hno)
      exact ⟨hres.1.symm.trans hs.1,hres.2.1.symm.trans hs.2.1⟩
    · obtain ⟨hram,hmode⟩ := h (hnone.mp hfail)
      obtain ⟨h₁,h₂,h₃,h₄⟩ := hun hfail
      exact ⟨h₁.trans hram,h₂.trans hmode,h₃.trans ofile,fun i => by rw [h₄,file]⟩

theorem failed_open_unchanged (s : Sys P) (p : P) (d : Nat) (c : Call) (h : s.Walks p d c.path) :
    ((s.call p d c).2 = none → s.Unchanged (s.call p d c).1) ↔
      ¬ (s.NoRoom p ∧ s.Commits p d c) := by
  cases c with
  | «open» path flags => exact (openInode_ready h flags).unchanged_iff _
  | creat path mode => exact (creatInode_ready h mode).unchanged_iff _

def start (ram : Ram Unit) (ref : Nat) : Sys Unit where
  ram := ram
  leaf := fun _ => .file
  readOnly := fun _ => false
  mode := fun _ => defFileMode
  noMemory := false
  file := fun _ => ⟨ref,.none,false,false,0,0,none,0⟩
  ofile := fun _ _ => none

theorem failed_open_unchanged_exclusive : ∃ ram : Ram Unit, Ram.fsInit = some ram ∧
    ((start ram 0).call () 0 (.open "/hello".toUTF8.toList (oCreate ||| oExcl))).2 = none ∧
    (start ram 0).Unchanged
      ((start ram 0).call () 0 (.open "/hello".toUTF8.toList (oCreate ||| oExcl))).1 := by
  obtain ⟨ram,hram,hfail⟩ := Machine.exists_of_any (o := Ram.fsInit)
    (P := fun ram => ((start ram 0).call () 0
    (.open "/hello".toUTF8.toList (oCreate ||| oExcl))).2 = none) (by decide +kernel)
  have htree := (View.Tree.fsInit_rec (Q := fun _ => True) hram (fun _ _ _ => trivial)
    fun _ _ _ _ _ _ _ _ _ _ _ _ => trivial).1
  refine ⟨ram,hram,hfail,(failed_open_unchanged (start ram 0) () 0
    (.open "/hello".toUTF8.toList (oCreate ||| oExcl)) (walks_of_tree htree _ _ _)).mpr ?_ hfail⟩
  rintro ⟨hno | hno,-⟩
  · exact hno 0 rfl
  · cases hno 0

theorem failed_open_creates : ∃ ram : Ram Unit, Ram.fsInit = some ram ∧
    ram.dLookup ram.root "x".toUTF8.toList = none ∧
    ((start ram 1).call () 0 (.open "/x".toUTF8.toList oCreate)).2 = none ∧
    ((start ram 1).call () 0 (.open "/x".toUTF8.toList oCreate)).1.ram.dLookup ram.root
      "x".toUTF8.toList = some 4 :=
  Machine.exists_of_any (by decide +kernel)

end Open.Sys

end TinyOs
