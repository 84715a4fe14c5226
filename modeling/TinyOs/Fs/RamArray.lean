import TinyOs.Fs.RamFile

namespace TinyOs.RamFile

open Function (update update_eq_self update_of_ne update_self)
open Effects Slab FileCalls List Growable
open Effects.Prog (ret_bind outcome_bind outcome_pure outcome_exists)

section

variable {F : Type} [DecidableEq F] {f : F} {ops : List (Op F)}

structure Arr (F : Type) where
  bytes : List UInt8
  files : F → Desc

def seekBase (off size : Nat) : Nat → Option Int
  | 0 => some 0
  | 1 => some off
  | 2 => some size
  | _ => none

namespace Arr

def setOff (a : Arr F) (f : F) (off : Nat) : Arr F :=
  { a with files := update a.files f { a.files f with off := off } }

def step (a : Arr F) : Op F → Arr F × Out
  | .lseek f offset whence =>
    match seekBase (a.files f).off a.bytes.length whence with
    | none => (a,.value (-1))
    | some base =>
      if 0 ≤ base + offset ∧ base + offset < 2 ^ 31 then
        (a.setOff f (base + offset).toNat,.value (base + offset))
      else (a,.value (-1))
  | .read f n room =>
    if n < 0 ∨ 0 < n ∧ (a.files f).readable = false then (a,.value (-1))
    else
      let bs := (a.bytes.drop (a.files f).off).take n.toNat
      if bs.length ≤ room then (a.setOff f ((a.files f).off + bs.length),.bytes bs)
      else
        (a.setOff f ((a.files f).off + min bs.length ((room / bufSize + 1) * bufSize)),.value (-1))
  | .write f _ data n =>
    if n < 0 ∨ 0 < n ∧ (a.files f).writable = false then (a,.value (-1))
    else
      let m := if n.toNat ≤ data.length then n.toNat else data.length / bufSize * bufSize
      let off := if (a.files f).append ∧ 0 < m then a.bytes.length else (a.files f).off
      ({ (a.setOff f (off + m)) with bytes := put 0 a.bytes off (data.take m) },
        .value (if n.toNat ≤ data.length then n else -1))
  | .ftruncate f length =>
    if length < 0 ∨ (a.files f).writable = false then (a,.value (-1))
    else ({ a with bytes := resize 0 a.bytes length.toNat },.value 0)

end Arr

def maxSize : Nat := 4 * 2 ^ 20

def Op.Valid : Op F → Prop
  | .lseek _ offset _ => -2 ^ 31 ≤ offset ∧ offset < 2 ^ 31
  | .read _ n _ => n < 2 ^ 31
  | .write _ _ _ n => n < 2 ^ 31
  | .ftruncate _ length => length < 2 ^ 31

structure Refines (s : State F) (a : Arr F) : Prop where
  files : s.files = a.files
  ip : Holds s.ip a.bytes
  offs : ∀ f, (a.files f).off < 2 ^ 31
  size : a.bytes.length < maxSize

variable {s s' : State F} {a : Arr F} {out : Out} {p : Nat}

theorem toInt_sum (base offset : Int) (hb : 0 ≤ base ∧ base < 2 ^ 31)
    (ho : -2 ^ 31 ≤ offset ∧ offset < 2 ^ 31) :
    toInt (base + offset) =
      if base + offset < 2 ^ 31 then base + offset else base + offset - 2 ^ 32 := by
  have hword : (word : Int) = 2 ^ 32 := rfl
  by_cases hlt : base + offset < 2 ^ 31
  · rw [if_pos hlt,toInt]
    exact Int.bmod_eq_of_le (by rw [hword]; omega) (by rw [hword]; omega)
  · rw [if_neg hlt,toInt,← Int.sub_bmod_right,hword]
    exact Int.bmod_eq_of_le (by rw [hword]; omega) (by rw [hword]; omega)

theorem toInt_small {x : Nat} (h : x < 2 ^ 31) : toInt x = x := by
  have hsum := toInt_sum x 0 (by omega) (by omega)
  rw [Int.add_zero] at hsum
  rw [hsum,if_pos (by omega)]

theorem filelseek_eq {f : File} {i : Inode} {offset : Int} {whence : Nat} (hoff : f.off < 2 ^ 31)
    (hsize : i.size < 2 ^ 31) (ho : -2 ^ 31 ≤ offset ∧ offset < 2 ^ 31) :
    filelseek f i offset whence =
      match seekBase f.off i.size whence with
      | none => (f,-1)
      | some base =>
        if 0 ≤ base + offset ∧ base + offset < 2 ^ 31 then
          ({ f with off := (base + offset).toNat },base + offset)
        else (f,-1) := by
  have hseek : ∀ raw base : Int, raw = base → 0 ≤ base ∧ base < 2 ^ 31 →
      (if toInt (raw + offset) < 0 then (f,(-1 : Int))
        else ({ f with off := (toInt (raw + offset)).toNat },toInt (raw + offset))) =
      if 0 ≤ base + offset ∧ base + offset < 2 ^ 31 then
        ({ f with off := (base + offset).toNat },base + offset)
      else (f,-1) := by
    rintro raw base rfl hbase
    rw [toInt_sum _ _ hbase ho]
    by_cases hin : 0 ≤ raw + offset ∧ raw + offset < 2 ^ 31
    · rw [if_pos hin.2,if_pos hin,if_neg (by omega)]
    · rw [if_neg hin,if_pos (by split <;> omega)]
  rcases whence with _ | _ | _ | k
  · exact hseek 0 0 rfl (by decide)
  · have hcur := hseek (toInt f.off) f.off (toInt_small hoff) (by omega)
    exact hcur
  · have hend := hseek (toInt i.size) i.size (toInt_small hsize) (by omega)
    exact hend
  · rfl

theorem Refines.setOff (h : Refines s a) (f : F) {off : Nat} (hoff : off < 2 ^ 31) :
    Refines { s with files := update s.files f { s.files f with off := off } }
      (a.setOff f off) := by
  refine ⟨?_,h.ip,fun g => ?_,h.size⟩
  · rw [h.files]
    rfl
  by_cases hg : g = f
  · subst hg
    simp only [Arr.setOff,update_self]
    exact hoff
  · simp only [Arr.setOff,update_of_ne hg]
    exact h.offs g

theorem Refines.lseek {offset : Int} {whence : Nat} (h : Refines s a)
    (hv : -2 ^ 31 ≤ offset ∧ offset < 2 ^ 31) (hs : Step p s (.lseek f offset whence,out) s') :
    out = (a.step (.lseek f offset whence)).2 ∧ Refines s' (a.step (.lseek f offset whence)).1 := by
  have hsize : s.ip.size < 2 ^ 31 := by
    have hlimit := h.size
    rw [h.ip.size]
    simp only [maxSize] at hlimit
    omega
  have hoff : (s.files f).off < 2 ^ 31 := by
    rw [h.files]
    exact h.offs f
  simp only [Step,syscall] at hs
  obtain ⟨rfl,rfl⟩ := Prod.mk.inj (outcome_pure.mp hs)
  have hbase : seekBase (s.files f).off s.ip.size whence =
      seekBase (a.files f).off a.bytes.length whence := by
    rw [h.ip.size,h.files]
  have hsame : update s.files f { s.files f with toFile := (s.files f).toFile } = s.files :=
    update_eq_self _ _
  rw [filelseek_eq hoff hsize hv,hbase,Arr.step]
  rcases seekBase (a.files f).off a.bytes.length whence with _ | base
  · exact ⟨rfl,by simpa only [hsame] using h⟩
  dsimp only
  split
  · rename_i hin
    exact ⟨rfl,h.setOff f (by omega)⟩
  · exact ⟨rfl,by simpa only [hsame] using h⟩

theorem Refines.read {n : Int} {room : Nat} (h : Refines s a)
    (hs : Step p s (.read f n room,out) s') :
    out = (a.step (.read f n room)).2 ∧ Refines s' (a.step (.read f n room)).1 := by
  have hoff := h.offs f
  have hfile : a.setOff f (a.files f).off = a := by
    simp only [Arr.setOff]
    rw [update_eq_self]
  simp only [Step,syscall,h.files] at hs
  simp only [Arr.step]
  by_cases hneg : n < 0
  · rw [if_pos hneg] at hs
    obtain ⟨rfl,rfl⟩ := Prod.mk.inj (outcome_pure.mp hs)
    rw [if_pos (.inl hneg)]
    exact ⟨rfl,h⟩
  rw [if_neg hneg] at hs
  by_cases hr : (a.files f).readable = true
  · have hword : (a.files f).off + a.bytes.length + bufSize < word := by
      have := h.size
      simp only [maxSize,bufSize,word] at *
      omega
    rw [readLoop_eq (a.files f).off h.ip hr hword rfl rfl (.inl rfl) (Nat.zero_le _)
      (Nat.zero_le _),ret_bind] at hs
    obtain ⟨rfl,rfl⟩ := Prod.mk.inj (outcome_pure.mp hs)
    have hgood : ¬ (n < 0 ∨ 0 < n ∧ (a.files f).readable = false) := by
      rw [hr]
      simp [hneg]
    rw [if_neg hgood]
    have hlen : ((a.bytes.drop (a.files f).off).take n.toNat).length ≤
        a.bytes.length - (a.files f).off := by
      rw [length_take,length_drop]
      omega
    have hbound : ∀ k, k ≤ a.bytes.length - (a.files f).off → (a.files f).off + k < 2 ^ 31 := by
      intro k hk
      have := h.size
      simp only [maxSize] at this
      omega
    split
    · have hset := h.setOff f (hbound _ hlen)
      rw [h.files] at hset
      exact ⟨rfl,hset⟩
    · have hset := h.setOff f (hbound _ ((min_le_left _ ((room / bufSize + 1) * bufSize)).trans hlen))
      rw [h.files] at hset
      exact ⟨rfl,hset⟩
  · have hr : (a.files f).readable = false := by simpa using hr
    rw [readLoop_refused hr,ret_bind] at hs
    obtain ⟨rfl,rfl⟩ := Prod.mk.inj (outcome_pure.mp hs)
    have hs' : Refines ⟨update a.files f (a.files f),s.ip⟩ a := by
      rw [update_eq_self]
      exact ⟨rfl,h.ip,h.offs,h.size⟩
    by_cases hn : n = 0
    · subst hn
      have hgood : ¬ ((0 : Int) < 0 ∨ (0 : Int) < 0 ∧ (a.files f).readable = false) := by simp
      simp only [if_neg hgood,Int.toNat_zero,take_zero,length_nil,zero_le,if_true,add_zero,
        hfile]
      exact ⟨rfl,hs'⟩
    · have hbad : n < 0 ∨ 0 < n ∧ (a.files f).readable = false := .inr ⟨by omega,hr⟩
      have hpos : n.toNat ≠ 0 := by omega
      simp only [if_pos hbad,if_neg hpos]
      exact ⟨rfl,hs'⟩

theorem Refines.write {uaddr : Nat} {data : List UInt8} {n : Int} (h : Refines s a)
    (hlimit : (a.step (.write f uaddr data n)).1.bytes.length < maxSize)
    (hs : Step p s (.write f uaddr data n,out) s') :
    out = (a.step (.write f uaddr data n)).2 ∧ Refines s' (a.step (.write f uaddr data n)).1 := by
  have huser : ∀ k m, (Op.write f uaddr data n).user (uaddr + k) m =
      if k + m ≤ data.length then some ((data.drop k).take m) else none := by
    intro k m
    rw [Op.user,Nat.add_sub_cancel_left]
  simp only [Step,syscall,h.files] at hs
  simp only [Arr.step] at hlimit ⊢
  by_cases hneg : n < 0
  · rw [if_pos hneg] at hs
    obtain ⟨rfl,rfl⟩ := Prod.mk.inj (outcome_pure.mp hs)
    rw [if_pos (.inl hneg)]
    exact ⟨rfl,h⟩
  rw [if_neg hneg] at hs
  obtain ⟨r,hr,hs⟩ := outcome_bind.mp hs
  obtain ⟨rfl,rfl⟩ := Prod.mk.inj (outcome_pure.mp hs)
  by_cases hbad : 0 < n ∧ (a.files f).writable = false
  · obtain rfl := writeLoop_refused hbad.2 (by omega) hr
    rw [if_pos (.inr hbad)]
    exact ⟨rfl,update_eq_self _ _,h.ip,h.offs,h.size⟩
  have hgood : ¬ (n < 0 ∨ 0 < n ∧ (a.files f).writable = false) := not_or.mpr ⟨hneg,hbad⟩
  rw [if_neg hgood] at hlimit ⊢
  simp only [show (if n.toNat ≤ data.length then n.toNat else data.length / bufSize * bufSize) =
    passed n.toNat data from rfl] at hlimit ⊢
  obtain ⟨off,hoff⟩ : ∃ off, off = if (a.files f).append ∧ 0 < passed n.toNat data then
      a.bytes.length else (a.files f).off := ⟨_,rfl⟩
  rw [← hoff] at hlimit ⊢
  have hpass : passed n.toNat data ≤ data.length := by
    rw [passed,bufSize]
    split <;> omega
  have hend : off + passed n.toNat data < 2 ^ 31 := by
    by_cases hz : passed n.toNat data = 0
    · have := h.offs f
      rw [hoff,hz,if_neg (by omega)]
      exact this
    have hne : data.take (passed n.toNat data) ≠ [] := by
      rw [← length_pos_iff,length_take]
      omega
    rw [put_length hne,length_take] at hlimit
    simp only [maxSize] at hlimit
    omega
  obtain ⟨ip',hr',hnew⟩ : ∃ ip', r = ({ (a.files f).toFile with off := off + passed n.toNat data },
      ip',if n.toNat ≤ data.length then n else -1) ∧
      Holds ip' (put 0 a.bytes off (data.take (passed n.toNat data))) := by
    have hwhole := writeLoop_whole h.ip (fun hc => hbad ⟨by omega,hc.2⟩) huser hoff
      (hend.trans (by decide)) hr
    rwa [Int.toNat_of_nonneg (by omega)] at hwhole
  rw [hr']
  exact ⟨rfl,rfl,hnew,(h.setOff f hend).offs,hlimit⟩

theorem Refines.ftruncate {length : Int} (h : Refines s a)
    (hlimit : (a.step (.ftruncate f length)).1.bytes.length < maxSize)
    (hs : Step p s (.ftruncate f length,out) s') :
    out = (a.step (.ftruncate f length)).2 ∧ Refines s' (a.step (.ftruncate f length)).1 := by
  have hcond : (length < 0 ∨ (!(s.files f).writable) = true) ↔
      length < 0 ∨ (a.files f).writable = false := by
    rw [h.files]
    simp
  simp only [Step,syscall] at hs
  simp only [Arr.step] at hlimit ⊢
  by_cases hbad : length < 0 ∨ (a.files f).writable = false
  · rw [if_pos (hcond.mpr hbad)] at hs
    rw [if_pos hbad]
    obtain ⟨rfl,rfl⟩ := Prod.mk.inj (outcome_pure.mp hs)
    exact ⟨rfl,h⟩
  rw [if_neg (fun hc => hbad (hcond.mp hc))] at hs
  rw [if_neg hbad] at hlimit ⊢
  obtain ⟨r,hr,hs⟩ := outcome_bind.mp hs
  obtain ⟨rfl,rfl⟩ := Prod.mk.inj (outcome_pure.mp hs)
  rw [fsTruncate,if_neg (not_not.mpr h.ip.type)] at hr
  obtain ⟨hnew,hret⟩ := ramfsTruncate_outcome h.ip hr
  exact ⟨congrArg Out.value hret,h.files,hnew,h.offs,hlimit⟩

theorem Refines.step {op : Op F} (h : Refines s a) (hv : op.Valid)
    (hlimit : (a.step op).1.bytes.length < maxSize) (hs : Step p s (op,out) s') :
    out = (a.step op).2 ∧ Refines s' (a.step op).1 := by
  cases op with
  | lseek f offset whence => exact h.lseek hv hs
  | read f n room => exact h.read hs
  | write f uaddr data n => exact h.write hlimit hs
  | ftruncate f length => exact h.ftruncate hlimit hs

namespace Arr

def run (a : Arr F) : List (Op F) → Arr F × List Out
  | [] => (a,[])
  | op :: ops => ((a.step op).1.run ops).map id ((a.step op).2 :: ·)

def Bounded (a : Arr F) : List (Op F) → Prop
  | [] => True
  | op :: ops => (a.step op).1.bytes.length < maxSize ∧ (a.step op).1.Bounded ops

end Arr

omit [DecidableEq F] in
def Op.file : Op F → F
  | .lseek f _ _ | .read f _ _ | .write f _ _ _ | .ftruncate f _ => f

theorem step_files {op : Op F} {g : F} (hg : g ≠ op.file) : (a.step op).1.files g = a.files g := by
  have hset : ∀ (f : F) (off : Nat), g ≠ f → (a.setOff f off).files g = a.files g := by
    intro f off hne
    simp only [Arr.setOff,update_of_ne hne]
  cases op with
  | lseek f offset whence =>
    rw [Arr.step]
    split
    · rfl
    split
    · exact hset f _ hg
    · rfl
  | read f n room =>
    rw [Arr.step]
    split
    · rfl
    dsimp only
    split
    · exact hset f _ hg
    · exact hset f _ hg
  | write f uaddr data n =>
    rw [Arr.step]
    split
    · rfl
    · exact hset f _ hg
  | ftruncate f length =>
    rw [Arr.step]
    split
    · rfl
    · rfl

theorem run_files {g : F} (hg : ∀ op ∈ ops, g ≠ op.file) : (a.run ops).1.files g = a.files g := by
  induction ops generalizing a with
  | nil => rfl
  | cons op ops ih =>
    obtain ⟨hop,hops⟩ := forall_mem_cons.mp hg
    exact (ih hops).trans (step_files hop)

theorem exists_step (p : Nat) (s : State F) (op : Op F) : ∃ out s', Step p s (op,out) s' := by
  have hans : ∀ e, ∃ r, answers op.user e r := by
    intro e
    cases e with
    | kmalloc size => exact ⟨some ⟨0,0⟩,Option.some_ne_none _⟩
    | kfree ptr => exact ⟨(),trivial⟩
    | copyin q addr m => exact ⟨op.user addr m,rfl⟩
  obtain ⟨⟨s',out⟩,ho⟩ := outcome_exists hans (syscall p s op)
  exact ⟨out,s',ho⟩

theorem exists_run (p : Nat) (s : State F) (ops : List (Op F)) :
    ∃ outs s', outs.length = ops.length ∧ Transition.Run (Step p) s (ops.zip outs) s' := by
  induction ops generalizing s with
  | nil => exact ⟨[],s,rfl,.nil s⟩
  | cons op ops ih =>
    obtain ⟨out,t,hstep⟩ := exists_step p s op
    obtain ⟨outs,s',hlen,hrun⟩ := ih t
    exact ⟨out :: outs,s',congrArg Nat.succ hlen,.cons hstep hrun⟩

theorem Refines.run {outs : List Out} (h : Refines s a)
    (hv : ∀ op ∈ ops, op.Valid) (hb : a.Bounded ops) (hlen : outs.length = ops.length)
    (hrun : Transition.Run (Step p) s (ops.zip outs) s') :
    outs = (a.run ops).2 ∧ Refines s' (a.run ops).1 := by
  induction ops generalizing s a outs with
  | nil =>
    obtain rfl := length_eq_zero_iff.mp hlen
    cases hrun
    exact ⟨rfl,h⟩
  | cons op ops ih =>
    obtain ⟨out,outs,rfl⟩ := exists_cons_of_length_eq_add_one hlen
    obtain ⟨hop,hops⟩ := forall_mem_cons.mp hv
    cases hrun with
    | cons hstep hrest =>
      obtain ⟨rfl,hnext⟩ := h.step hop hb.1 hstep
      obtain ⟨houts,hend⟩ := ih hnext hops hb.2 (Nat.succ.inj hlen) hrest
      exact ⟨congrArg _ houts,hend⟩

theorem ramfs_file_growable_array (p : Nat) (s : State F) (a : Arr F) (ops : List (Op F))
    (h : Refines s a) (hv : ∀ op ∈ ops, op.Valid) (hb : a.Bounded ops) :
    (∃ outs s', outs.length = ops.length ∧ Transition.Run (Step p) s (ops.zip outs) s') ∧
      ∀ outs s', outs.length = ops.length → Transition.Run (Step p) s (ops.zip outs) s' →
        outs = (a.run ops).2 ∧ Refines s' (a.run ops).1 ∧
        s'.ip.size = (a.run ops).1.bytes.length ∧
        ∀ f, (∀ op ∈ ops, f ≠ op.file) → s'.files f = s.files f := by
  refine ⟨exists_run p s ops,fun outs s' hlen hrun => ?_⟩
  obtain ⟨houts,href⟩ := h.run hv hb hlen hrun
  refine ⟨houts,href,href.ip.size,fun f hf => ?_⟩
  rw [href.files,h.files]
  exact run_files hf

end

theorem ramfs_file_growable_array_gap : ∃ (s s' : State Bool) (outs : List Out),
    Transition.Run (Step 0) s
        ([.write false 0 [1,2] 2,.lseek false 4 0,.write true 0 [7] 1,.write false 0 [5] 1,
          .ftruncate false 6,.lseek true (-6) 2,.read true 9 9].zip outs) s' ∧
      outs = [.value 2,.value 4,.value 1,.value 1,.value 0,.value 0,
        .bytes [1,2,7,0,5,0]] := by
  obtain ⟨⟨outs,s',hlen,hrun⟩,hall⟩ := ramfs_file_growable_array 0
    ⟨fun f => ⟨⟨true,f,0⟩,true⟩,⟨.file,0,none,fun _ => 0⟩⟩
    ⟨[],fun f => ⟨⟨true,f,0⟩,true⟩⟩
    [.write false 0 [1,2] 2,.lseek false 4 0,.write true 0 [7] 1,.write false 0 [5] 1,
      .ftruncate false 6,.lseek true (-6) 2,.read true 9 9]
    ⟨rfl,⟨rfl,rfl,(fun i hi => absurd hi (Nat.not_lt_zero i)),fun _ => rfl⟩,
      fun _ => Nat.two_pow_pos 31,by decide⟩
    (by simp [Op.Valid]) (by simp only [Arr.Bounded]; decide)
  exact ⟨_,s',outs,hrun,(hall outs s' hlen hrun).1.trans (by decide)⟩

end TinyOs.RamFile
