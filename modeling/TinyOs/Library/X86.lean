import TinyOs.Library.ByteMem

namespace X86

open ByteMem List

inductive Reg where
  | eax
  | ecx
  | edx
  | ebx
  | esp
  | ebp
  | esi
  | edi
  deriving DecidableEq, Repr

structure Cpu where
  reg : Reg → Word
  ds : BitVec 16
  cs : BitVec 16
  ss : BitVec 16
  eip : Word
  eflags : Word
  cr3 : Word
  zf : Bool
  mem : Mem

inductive Operand (S : Type) where
  | sym (s : S)
  | disp (d : Word) (r : Reg)
  | index (s : S) (r : Reg)

inductive Instr (S H L : Type) where
  | pushl (r : Reg)
  | pushImm (v : Word)
  | pushDs
  | popl (r : Reg)
  | popDs
  | pushal
  | popal
  | movl (src dst : Reg)
  | movlMem (src : Operand S) (dst : Reg)
  | movwImm (v : BitVec 16) (dst : Reg)
  | movwDs (src : Reg)
  | movlCr3 (src : Reg)
  | testl (src dst : Reg)
  | testlMem (v : Word) (dst : Operand S)
  | xorl (src dst : Reg)
  | shrl (n : Nat) (dst : Reg)
  | addl (v : Word) (dst : Reg)
  | addlMem (v : Word) (dst : Operand S)
  | jz (l : L)
  | jmp (l : L)
  | label (l : L)
  | call (h : H)
  | iret

namespace Cpu

@[simps -fullyApplied mem ds] def set (s : Cpu) (r : Reg) (v : Word) : Cpu :=
  { s with reg := Function.update s.reg r v }

@[simps -fullyApplied] def setDs (s : Cpu) (v : BitVec 16) : Cpu := { s with ds := v }

@[simps -fullyApplied] def setSs (s : Cpu) (v : BitVec 16) : Cpu := { s with ss := v }

@[simps -fullyApplied] def setCr3 (s : Cpu) (v : Word) : Cpu := { s with cr3 := v }

@[simps -fullyApplied] def setZf (s : Cpu) (v : Bool) : Cpu := { s with zf := v }

@[simps -fullyApplied] def goto (s : Cpu) (cs : BitVec 16) (eip eflags : Word) : Cpu :=
  { s with cs := cs, eip := eip, eflags := eflags }

def read (s : Cpu) (a : Word) : Word := ByteMem.read s.mem a

def write (s : Cpu) (a v : Word) : Cpu := { s with mem := ByteMem.write s.mem a v }

def push (s : Cpu) (v : Word) : Cpu := (s.write (s.reg .esp - 4) v).set .esp (s.reg .esp - 4)

def top (s : Cpu) : Word := s.read (s.reg .esp)

def drop (s : Cpu) (n : Word) : Cpu := s.set .esp (s.reg .esp + n)

def pushal (s : Cpu) : Cpu :=
  let esp := s.reg .esp
  ((((((((s.push (s.reg .eax)).push (s.reg .ecx)).push (s.reg .edx)).push (s.reg .ebx)).push
    esp).push (s.reg .ebp)).push (s.reg .esi)).push (s.reg .edi))

def popal (s : Cpu) : Cpu :=
  let sp := s.reg .esp
  { s with
    reg := fun
      | .edi => s.read sp
      | .esi => s.read (sp + 4)
      | .ebp => s.read (sp + 8)
      | .ebx => s.read (sp + 16)
      | .edx => s.read (sp + 20)
      | .ecx => s.read (sp + 24)
      | .eax => s.read (sp + 28)
      | .esp => sp + 32 }

def rpl (cs : BitVec 16) : BitVec 16 := cs &&& 3

def interrupt (s : Cpu) (esp0 : Word) (ss0 kcode : BitVec 16) : Cpu :=
  let outer := if rpl s.cs = 0 then s
    else (((s.setSs ss0).set .esp esp0).push (s.ss.setWidth 32)).push (s.reg .esp)
  (((outer.push s.eflags).push (s.cs.setWidth 32)).push s.eip).goto kcode s.eip
    (s.eflags &&& ~~~0x200)

def iret (s : Cpu) : Cpu :=
  let sp := s.reg .esp
  let cs := (s.read (sp + 4)).setWidth 16
  let s' := s.goto cs (s.read sp) (s.read (sp + 8))
  if rpl cs = 0 then s'.set .esp (sp + 12)
  else (s'.setSs ((s.read (sp + 16)).setWidth 16)).set .esp (s.read (sp + 12))

end Cpu

variable {S H L : Type} [DecidableEq L]

def Operand.addr (sym : S → Word) (s : Cpu) : Operand S → Word
  | .sym x => sym x
  | .disp d r => s.reg r + d
  | .index x r => sym x + 4 * s.reg r

section

variable (sym : S → Word) (env : H → Cpu → Cpu)

def exec (s : Cpu) : Instr S H L → Cpu
  | .pushl r => s.push (s.reg r)
  | .pushImm v => s.push v
  | .pushDs => s.push (s.ds.setWidth 32)
  | .popl r => (s.drop 4).set r s.top
  | .popDs => (s.drop 4).setDs (s.top.setWidth 16)
  | .pushal => s.pushal
  | .popal => s.popal
  | .movl src dst => s.set dst (s.reg src)
  | .movlMem src dst => s.set dst (s.read (src.addr sym s))
  | .movwImm v dst => s.set dst ((s.reg dst).extractLsb' 16 16 ++ v)
  | .movwDs src => s.setDs ((s.reg src).setWidth 16)
  | .movlCr3 src => s.setCr3 (s.reg src)
  | .testl src dst => s.setZf (s.reg src &&& s.reg dst = 0)
  | .testlMem v dst => s.setZf (v &&& s.read (dst.addr sym s) = 0)
  | .xorl src dst =>
    let v := s.reg dst ^^^ s.reg src
    (s.set dst v).setZf (v = 0)
  | .shrl n dst =>
    let v := s.reg dst >>> n
    (s.set dst v).setZf (v = 0)
  | .addl v dst =>
    let r := s.reg dst + v
    (s.set dst r).setZf (r = 0)
  | .addlMem v dst =>
    let r := s.read (dst.addr sym s) + v
    (s.write (dst.addr sym s) r).setZf (r = 0)
  | .call h => env h s
  | .jz _ | .jmp _ | .label _ | .iret => s

def skipTo (l : L) : List (Instr S H L) → List (Instr S H L)
  | [] => []
  | .label l' :: is => if l' = l then is else skipTo l is
  | _ :: is => skipTo l is

def runFor : Nat → List (Instr S H L) → Cpu → Option Cpu
  | 0, _, _ => none
  | _ + 1, [], _ => none
  | _ + 1, .iret :: _, s => some s.iret
  | n + 1, .jmp l :: is, s => runFor n (skipTo l is) s
  | n + 1, .jz l :: is, s => runFor n (if s.zf then skipTo l is else is) s
  | n + 1, i :: is, s => runFor n is (exec sym env s i)

def run (is : List (Instr S H L)) (s : Cpu) : Option Cpu := runFor sym env is.length is s

end

omit [DecidableEq L] in
theorem skipTo_length [DecidableEq L] (l : L) (is : List (Instr S H L)) :
    (skipTo l is).length ≤ is.length := by
  induction is with
  | nil => exact le_refl 0
  | cons i is ih =>
    have hstep := Nat.le_succ_of_le ih
    cases i with
    | label l' =>
      rw [skipTo]
      split
      · exact Nat.le_succ _
      · exact hstep
    | _ => exact hstep

def Instr.isLabel (l : L) : Instr S H L → Bool
  | .label l' => l' = l
  | _ => false

theorem skipTo_append {l : L} {is : List (Instr S H L)} (h : ∀ i ∈ is, i.isLabel l = false)
    (js : List (Instr S H L)) : skipTo l (is ++ js) = skipTo l js := by
  induction is with
  | nil => rfl
  | cons i is ih =>
    have hrest := ih fun j hj => h j (mem_cons_of_mem i hj)
    have hi := h i (mem_cons_self ..)
    cases i with
    | label l' =>
      have hne : l' ≠ l := of_decide_eq_false hi
      rw [cons_append,skipTo,if_neg hne,hrest]
    | _ => exact hrest

theorem skipTo_label (l : L) (is : List (Instr S H L)) : skipTo l (.label l :: is) = is :=
  if_pos rfl

variable {sym : S → Word} {env : H → Cpu → Cpu}

theorem runFor_fuel {n m : Nat} {is : List (Instr S H L)} {s : Cpu} (hn : is.length ≤ n)
    (hm : is.length ≤ m) : runFor sym env n is s = runFor sym env m is s := by
  induction n generalizing m is s with
  | zero =>
    have h0 : is = [] := eq_nil_of_length_eq_zero (Nat.le_zero.mp hn)
    rw [h0]
    cases m <;> rfl
  | succ n ih =>
    cases is with
    | nil => cases m <;> rfl
    | cons i is =>
      cases m with
      | zero => exact absurd hm (Nat.not_succ_le_zero _)
      | succ m =>
        have hn' : is.length ≤ n := Nat.le_of_succ_le_succ hn
        have hm' : is.length ≤ m := Nat.le_of_succ_le_succ hm
        cases i with
        | iret => rfl
        | jmp l =>
          have hl := skipTo_length l is
          exact ih (le_trans hl hn') (le_trans hl hm')
        | jz l =>
          have hl := skipTo_length l is
          simp only [runFor]
          split
          · exact ih (le_trans hl hn') (le_trans hl hm')
          · exact ih hn' hm'
        | _ => exact ih hn' hm'

def Instr.straight : Instr S H L → Bool
  | .jz _ | .jmp _ | .iret => false
  | _ => true

omit [DecidableEq L] in
theorem run_cons [DecidableEq L] {i : Instr S H L} (hi : i.straight) (is : List (Instr S H L))
    (s : Cpu) : run sym env (i :: is) s = run sym env is (exec sym env s i) := by
  cases i <;> first | rfl | cases hi

theorem run_jmp (l : L) (is : List (Instr S H L)) (s : Cpu) :
    run sym env (.jmp l :: is) s = run sym env (skipTo l is) s :=
  runFor_fuel (skipTo_length l is) (le_refl _)

theorem run_jz (l : L) (is : List (Instr S H L)) (s : Cpu) : run sym env (.jz l :: is) s =
      if s.zf then run sym env (skipTo l is) s else run sym env is s := by
  change runFor sym env is.length (if s.zf then skipTo l is else is) s = _
  split
  · exact runFor_fuel (skipTo_length l is) (le_refl _)
  · rfl

theorem run_append {is : List (Instr S H L)} (h : ∀ i ∈ is, i.straight) (js : List (Instr S H L))
    (s : Cpu) : run sym env (is ++ js) s = run sym env js (is.foldl (exec sym env) s) := by
  induction is generalizing s with
  | nil => rfl
  | cons i is ih =>
    have hi := h i (mem_cons_self ..)
    rw [cons_append,run_cons hi,ih fun j hj => h j (mem_cons_of_mem i hj)]
    rfl

def Stacked (m : Mem) : Word → List Word → Prop
  | _, [] => True
  | sp, v :: vs => ByteMem.read m sp = v ∧ Stacked m (sp + 4) vs

namespace Stacked

variable {m m' : Mem} {sp a v : Word} {vs : List Word}

theorem congr (h : Stacked m sp vs) (hlen : 4 * vs.length < 2 ^ 32)
    (heq : ∀ x : Word, (x - sp).toNat < 4 * vs.length → m' x = m x) : Stacked m' sp vs := by
  induction vs generalizing sp with
  | nil => trivial
  | cons v vs ih =>
    obtain ⟨hv,hvs⟩ := h
    rw [length_cons] at hlen heq
    constructor
    · rw [← hv]
      apply ByteMem.read_congr
      intro x hx
      apply heq
      omega
    · apply ih hvs (by omega)
      intro x hx
      apply heq
      bv_omega

theorem write_below (h : Stacked m sp vs) (hlen : 4 * vs.length + 4 < 2 ^ 32) :
    Stacked (ByteMem.write m (sp - 4) v) sp vs := by
  apply h.congr (by omega)
  intro x hx
  apply ByteMem.write_of_le
  bv_omega

theorem push (h : Stacked m sp vs) (hlen : 4 * vs.length + 4 < 2 ^ 32) :
    Stacked (ByteMem.write m (sp - 4) v) (sp - 4) (v :: vs) := by
  constructor
  · exact ByteMem.read_write
  · rw [BitVec.sub_add_cancel]
    exact h.write_below hlen

theorem set (h : Stacked m sp vs) (hlen : 4 * vs.length < 2 ^ 32) (j : Nat) (hj : j < vs.length) :
    Stacked (ByteMem.write m (sp + BitVec.ofNat 32 (4 * j)) v) sp (vs.set j v) := by
  induction vs generalizing sp j with
  | nil => trivial
  | cons w vs ih =>
    rw [length_cons] at hlen hj
    cases j with
    | zero =>
      have hz : sp + BitVec.ofNat 32 (4 * 0) = sp + 4 - 4 := by bv_omega
      have hsp : sp + 4 - 4 = sp := by bv_omega
      have hpush : Stacked (ByteMem.write m (sp + 4 - 4) v) (sp + 4 - 4) (v :: vs) :=
        push h.2 (by omega)
      rw [hz]
      rw [hsp] at hpush ⊢
      exact hpush
    | succ j =>
      have hs : sp + BitVec.ofNat 32 (4 * (j + 1)) = sp + 4 + BitVec.ofNat 32 (4 * j) := by
        bv_omega
      rw [hs]
      constructor
      · rw [← h.1]
        apply ByteMem.read_write_of_apart
        constructor <;> bv_omega
      · exact ih h.2 (by omega) j (by omega)

theorem get (h : Stacked m sp vs) (j : Nat) (hj : vs[j]? = some v) :
    ByteMem.read m (sp + BitVec.ofNat 32 (4 * j)) = v := by
  induction vs generalizing sp j with
  | nil => cases hj
  | cons w vs ih =>
    cases j with
    | zero =>
      cases hj
      have hz : sp + BitVec.ofNat 32 (4 * 0) = sp := by bv_omega
      rw [hz]
      exact h.1
    | succ j =>
      have hs : sp + BitVec.ofNat 32 (4 * (j + 1)) = sp + 4 + BitVec.ofNat 32 (4 * j) := by
        bv_omega
      rw [hs]
      exact ih h.2 j hj

theorem drop (h : Stacked m sp vs) (n : Nat) :
    Stacked m (sp + BitVec.ofNat 32 (4 * n)) (vs.drop n) := by
  induction n generalizing sp vs with
  | zero =>
    have hz : sp + BitVec.ofNat 32 (4 * 0) = sp := by bv_omega
    rw [hz]
    exact h
  | succ n ih =>
    cases vs with
    | nil => trivial
    | cons v vs =>
      have hs : sp + BitVec.ofNat 32 (4 * (n + 1)) = sp + 4 + BitVec.ofNat 32 (4 * n) := by
        bv_omega
      rw [hs]
      exact ih h.2

end Stacked

namespace Cpu

variable {s : Cpu} {r q : Reg} {v w : Word} {vs : List Word}

@[simp] theorem set_self : (s.set r v).reg r = v := Function.update_self ..

@[simp] theorem set_of_ne (h : q ≠ r) : (s.set r v).reg q = s.reg q := Function.update_of_ne h ..

@[simp] theorem push_esp : (s.push v).reg .esp = s.reg .esp - 4 := set_self

@[simp] theorem push_of_ne (h : r ≠ .esp) : (s.push v).reg r = s.reg r := set_of_ne h

@[simp] theorem push_mem : (s.push v).mem = ByteMem.write s.mem (s.reg .esp - 4) v := rfl

@[simp] theorem push_ds : (s.push v).ds = s.ds := rfl

def Holds (s : Cpu) (vs : List Word) : Prop := Stacked s.mem (s.reg .esp) vs

theorem Holds.of_eq {t : Cpu} (h : s.Holds vs) (hmem : t.mem = s.mem)
    (hesp : t.reg .esp = s.reg .esp) : t.Holds vs := by
  rw [Holds,hmem,hesp]
  exact h

theorem Holds.push (h : s.Holds vs) (hlen : 4 * vs.length + 4 < 2 ^ 32) :
    (s.push v).Holds (v :: vs) := by
  rw [Holds,push_esp]
  exact Stacked.push h hlen

theorem Holds.pushal (h : s.Holds vs) (hlen : 4 * vs.length + 32 < 2 ^ 32) :
    s.pushal.Holds (s.reg .edi :: s.reg .esi :: s.reg .ebp :: s.reg .esp :: s.reg .ebx ::
      s.reg .edx :: s.reg .ecx :: s.reg .eax :: vs) := by
  unfold Cpu.pushal
  repeat' apply Holds.push
  · exact h
  · omega
  all_goals
    simp only [length_cons]
    omega

theorem pushal_esp : s.pushal.reg .esp = s.reg .esp - 32 := by
  simp only [Cpu.pushal,push_esp]
  bv_omega

theorem Holds.top (h : s.Holds (v :: vs)) : s.top = v := h.1

theorem Holds.drop (h : s.Holds (v :: vs)) : (s.drop 4).Holds vs := by
  rw [Holds,Cpu.drop,set_self,set_mem]
  exact h.2

@[simp] theorem drop_esp : (s.drop v).reg .esp = s.reg .esp + v := set_self

@[simp] theorem drop_of_ne (h : r ≠ .esp) : (s.drop v).reg r = s.reg r := set_of_ne h

@[simp] theorem drop_mem : (s.drop v).mem = s.mem := rfl

@[simp] theorem drop_ds : (s.drop v).ds = s.ds := rfl

@[simp] theorem popal_mem : s.popal.mem = s.mem := rfl

@[simp] theorem popal_ds : s.popal.ds = s.ds := rfl

@[simp] theorem popal_esp : s.popal.reg .esp = s.reg .esp + 32 := rfl

theorem Holds.word (h : s.Holds vs) {a : Word} (j : Nat) (hj : vs[j]? = some v)
    (ha : a = s.reg .esp + BitVec.ofNat 32 (4 * j)) : s.read a = v := by
  rw [ha]
  exact Stacked.get h j hj

theorem Holds.popal {c : Reg → Word}
    (h : s.Holds (c .edi :: c .esi :: c .ebp :: w :: c .ebx :: c .edx :: c .ecx :: c .eax :: vs))
    (hr : r ≠ .esp) : s.popal.reg r = c r := by
  cases r with
  | edi => exact h.word 0 rfl (by bv_omega)
  | esi => exact h.word 1 rfl rfl
  | ebp => exact h.word 2 rfl rfl
  | ebx => exact h.word 4 rfl rfl
  | edx => exact h.word 5 rfl rfl
  | ecx => exact h.word 6 rfl rfl
  | eax => exact h.word 7 rfl rfl
  | esp => exact absurd rfl hr

theorem Holds.iret_inner {eip eflags : Word} {cs : BitVec 16}
    (h : s.Holds (eip :: cs.setWidth 32 :: eflags :: vs)) (hc : rpl cs = 0) :
    s.iret = (s.goto cs eip eflags).set .esp (s.reg .esp + 12) := by
  have h0 : s.read (s.reg .esp) = eip := h.word 0 rfl (by bv_omega)
  have h1 : s.read (s.reg .esp + 4) = cs.setWidth 32 := h.word 1 rfl rfl
  have h2 : s.read (s.reg .esp + 8) = eflags := h.word 2 rfl rfl
  have hcs : (cs.setWidth 32).setWidth 16 = cs := by simp
  simp only [iret,h0,h1,h2,hcs]
  rw [if_pos hc]

theorem Holds.iret_outer {eip eflags esp : Word} {cs ss : BitVec 16}
    (h : s.Holds (eip :: cs.setWidth 32 :: eflags :: esp :: ss.setWidth 32 :: vs))
    (hc : rpl cs ≠ 0) : s.iret = ((s.goto cs eip eflags).setSs ss).set .esp esp := by
  have h0 : s.read (s.reg .esp) = eip := h.word 0 rfl (by bv_omega)
  have h1 : s.read (s.reg .esp + 4) = cs.setWidth 32 := h.word 1 rfl rfl
  have h2 : s.read (s.reg .esp + 8) = eflags := h.word 2 rfl rfl
  have h3 : s.read (s.reg .esp + 12) = esp := h.word 3 rfl rfl
  have h4 : s.read (s.reg .esp + 16) = ss.setWidth 32 := h.word 4 rfl rfl
  have hcs : (cs.setWidth 32).setWidth 16 = cs := by simp
  have hss : (ss.setWidth 32).setWidth 16 = ss := by simp
  simp only [iret,h0,h1,h2,h3,h4,hcs,hss]
  rw [if_neg hc]

section Interrupt

variable {esp0 : Word} {ss0 kcode : BitVec 16}

theorem interrupt_outer_holds (h : rpl s.cs ≠ 0) : (s.interrupt esp0 ss0 kcode).Holds
    [s.eip,s.cs.setWidth 32,s.eflags,s.reg .esp,s.ss.setWidth 32] := by
  rw [interrupt,if_neg h]
  refine Holds.of_eq ?_ (goto_mem ..) (congrFun (goto_reg ..) _)
  repeat' apply Holds.push
  · trivial
  all_goals simp

theorem interrupt_outer_esp (h : rpl s.cs ≠ 0) :
    (s.interrupt esp0 ss0 kcode).reg .esp = esp0 - 20 := by
  rw [interrupt,if_neg h]
  simp only [goto_reg,push_esp,set_self]
  bv_omega

theorem interrupt_inner_holds (h : rpl s.cs = 0) : (s.interrupt esp0 ss0 kcode).Holds
    [s.eip,s.cs.setWidth 32,s.eflags] := by
  rw [interrupt,if_pos h]
  refine Holds.of_eq ?_ (goto_mem ..) (congrFun (goto_reg ..) _)
  repeat' apply Holds.push
  · trivial
  all_goals simp

theorem interrupt_inner_esp (h : rpl s.cs = 0) :
    (s.interrupt esp0 ss0 kcode).reg .esp = s.reg .esp - 12 := by
  rw [interrupt,if_pos h]
  simp only [goto_reg,push_esp]
  bv_omega

theorem interrupt_of_ne (h : r ≠ .esp) : (s.interrupt esp0 ss0 kcode).reg r = s.reg r := by
  unfold interrupt
  dsimp only
  split <;> simp [h]

theorem interrupt_ds : (s.interrupt esp0 ss0 kcode).ds = s.ds := by
  unfold interrupt
  dsimp only
  split <;> simp

end Interrupt

end Cpu

end X86
