import TinyOs.Library.X86

namespace TinyOs.Swtch

open ByteMem X86

def ret (s : Cpu) : Cpu := (s.drop 4).goto s.cs s.top s.eflags

def save (s : Cpu) : Cpu :=
  let s := s.set .eax (s.read (s.reg .esp + 4))
  let s := s.set .edx (s.read (s.reg .esp + 8))
  let s := s.set .ecx (s.read (s.reg .esp))
  let s := s.write (s.reg .eax) (s.reg .ecx)
  let s := s.write (s.reg .eax + 8) (s.reg .ebx)
  let s := s.write (s.reg .eax + 12) (s.reg .esi)
  let s := s.write (s.reg .eax + 16) (s.reg .edi)
  let s := s.write (s.reg .eax + 20) (s.reg .ebp)
  s.write (s.reg .eax + 4) (s.reg .esp)

def restore (s : Cpu) : Cpu :=
  let s := s.set .esp (s.read (s.reg .edx + 4))
  let s := s.set .ebx (s.read (s.reg .edx + 8))
  let s := s.set .esi (s.read (s.reg .edx + 12))
  let s := s.set .edi (s.read (s.reg .edx + 16))
  let s := s.set .ebp (s.read (s.reg .edx + 20))
  let s := s.set .ecx (s.read (s.reg .edx))
  ret (s.push (s.reg .ecx))

def swtch (s : Cpu) : Cpu := restore (save s)

def contextSize : Word := 24

def kstackSize : Word := 4096

def trapframeSize : Word := 60

structure Proc where
  context : Word
  kstack : Word
  kframe : Word

def memset (m : Mem) (a : Word) (c : BitVec 8) (n : Word) : Mem :=
  fun x => if x - a < n then c else m x

def setContext (m : Mem) (p : Proc) (eip esp : Word) : Mem :=
  write (write m p.context eip) (p.context + 4) esp

def ctxInit (m : Mem) (p : Proc) (sp entry : Word) : Mem :=
  setContext (write (memset m p.context 0 contextSize) (sp - 4) entry) p entry (sp - 4)

def kthreadCtxInit (m : Mem) (p : Proc) (kthreadTrampoline : Word) : Mem :=
  ctxInit m p (p.kstack + kstackSize) kthreadTrampoline

def userCtxInit (m : Mem) (p : Proc) (userStartTrampoline : Word) : Mem :=
  ctxInit m p (p.kstack + kstackSize - trapframeSize) userStartTrampoline

def forkUserCtxInit (m : Mem) (p : Proc) (trapUserReturn : Word) : Mem :=
  setContext (memset m p.context 0 contextSize) p trapUserReturn p.kframe

def Apart (a n b k : Word) : Prop := n ≤ b - a ∧ k ≤ a - b

def Same (m m' : Mem) (a n : Word) : Prop := ∀ x, x - a < n → m x = m' x

variable {s t : Cpu} {m : Mem} {p : Proc} {eip esp ebx esi edi ebp ctx : Word}

theorem Apart.outside {a n b k x : Word} (h : Apart a n b k) (hx : x - b < k) : n ≤ x - a := by
  obtain ⟨hn,hk⟩ := h
  have hadd : x - a = (x - b) + (b - a) := by bv_omega
  have hneg : a - b = - (b - a) := by bv_omega
  rw [hneg] at hk
  rw [hadd]
  generalize x - b = u at *
  generalize b - a = v at *
  bv_omega

theorem word_inside {b sp x : Word} (hsp : sp - b ≤ kstackSize - 4) (hx : (x - sp).toNat < 4) :
    x - b < kstackSize := by
  have hadd : x - b = (x - sp) + (sp - b) := by bv_omega
  rw [hadd]
  unfold kstackSize at *
  generalize x - sp = u at *
  generalize sp - b = v at *
  bv_omega

theorem above_word {sp x n : Word} (hx : x - sp < n) (hn : n ≤ kstackSize) :
    4 ≤ (x - (sp - 4)).toNat := by
  have hadd : x - (sp - 4) = x - sp + 4 := by bv_omega
  rw [hadd]
  unfold kstackSize at hn
  generalize x - sp = u at *
  bv_omega

theorem frame_inside {k x : Word} (hx : x - (k + kstackSize - trapframeSize) < trapframeSize) :
    x - k < kstackSize := by
  have hadd : x - k = x - (k + kstackSize - trapframeSize) + (kstackSize - trapframeSize) := by
    bv_omega
  rw [hadd]
  unfold kstackSize trapframeSize at *
  generalize x - _ = u at *
  bv_omega

theorem save_mem (s : Cpu) {a : Word} (ha : s.read (s.reg .esp + 4) = a) : (save s).mem =
    write (write (write (write (write (write s.mem a s.top) (a + 8) (s.reg .ebx)) (a + 12)
      (s.reg .esi)) (a + 16) (s.reg .edi)) (a + 20) (s.reg .ebp)) (a + 4) (s.reg .esp) := by
  subst ha
  simp only [save,Cpu.write,Cpu.read,Cpu.top,Cpu.set_self,Cpu.set_of_ne,Cpu.set_mem,ne_eq,
    reduceCtorEq,not_false_eq_true]

theorem save_edx (s : Cpu) : (save s).reg .edx = s.read (s.reg .esp + 8) := by
  simp only [save,Cpu.write,Cpu.read,Cpu.set_self,Cpu.set_of_ne,Cpu.set_mem,ne_eq,reduceCtorEq,
    not_false_eq_true]

theorem set_word {vs : List Word} (h : Stacked m ctx vs) (hlen : vs.length = 6) (j : Nat) (v : Word)
    (hj : j < 6) : Stacked (write m (ctx + BitVec.ofNat 32 (4 * j)) v) ctx (vs.set j v) :=
  h.set (by omega) j (by omega)

theorem stacked_six (m : Mem) (ctx : Word) :
    ∃ v₀ v₁ v₂ v₃ v₄ v₅, Stacked m ctx [v₀,v₁,v₂,v₃,v₄,v₅] :=
  ⟨_,_,_,_,_,_,rfl,rfl,rfl,rfl,rfl,rfl,trivial⟩

theorem save_context (s : Cpu) : Stacked (save s).mem (s.read (s.reg .esp + 4))
    [s.top,s.reg .esp,s.reg .ebx,s.reg .esi,s.reg .edi,s.reg .ebp] := by
  rw [save_mem s rfl]
  generalize s.read (s.reg .esp + 4) = a
  obtain ⟨_,_,_,_,_,_,h⟩ := stacked_six s.mem a
  have ha : a + BitVec.ofNat 32 (4 * 0) = a := BitVec.add_zero a
  have h0 := set_word h rfl 0 s.top (by decide)
  rw [ha] at h0
  have h2 := set_word h0 rfl 2 (s.reg .ebx) (by decide)
  have h3 := set_word h2 rfl 3 (s.reg .esi) (by decide)
  have h4 := set_word h3 rfl 4 (s.reg .edi) (by decide)
  have h5 := set_word h4 rfl 5 (s.reg .ebp) (by decide)
  exact set_word h5 rfl 1 (s.reg .esp) (by decide)

theorem save_frame (s : Cpu) {x : Word} (hx : contextSize ≤ x - s.read (s.reg .esp + 4)) :
    (save s).mem x = s.mem x := by
  rw [save_mem s rfl]
  generalize s.read (s.reg .esp + 4) = a at hx
  unfold contextSize at hx
  repeat rw [write_of_le (by bv_omega)]

structure Restores (t : Cpu) (ctx : Word) (m : Mem) : Prop where
  next : t.read (t.reg .esp + 8) = ctx
  apart : Apart (t.read (t.reg .esp + 4)) contextSize ctx contextSize
  kept : Same t.mem m ctx contextSize

theorem Restores.loads (h : Restores t ctx m) (hm : Stacked m ctx [eip,esp,ebx,esi,edi,ebp]) :
    (swtch t).eip = eip ∧ (swtch t).reg .esp = esp ∧ (swtch t).reg .ebx = ebx ∧
    (swtch t).reg .esi = esi ∧ (swtch t).reg .edi = edi ∧ (swtch t).reg .ebp = ebp ∧
    (swtch t).mem = write (save t).mem (esp - 4) eip := by
  have hs : Stacked (save t).mem ((save t).reg .edx) [eip,esp,ebx,esi,edi,ebp] := by
    rw [save_edx,h.next]
    apply hm.congr (by simp)
    intro x hx
    rw [save_frame t (h.apart.outside hx),h.kept x hx]
  unfold swtch
  generalize save t = s at hs ⊢
  have h0 : read s.mem (s.reg .edx) = eip := hs.1
  have h1 : read s.mem (s.reg .edx + 4) = esp := hs.get 1 rfl
  have h2 : read s.mem (s.reg .edx + 8) = ebx := hs.get 2 rfl
  have h3 : read s.mem (s.reg .edx + 12) = esi := hs.get 3 rfl
  have h4 : read s.mem (s.reg .edx + 16) = edi := hs.get 4 rfl
  have h5 : read s.mem (s.reg .edx + 20) = ebp := hs.get 5 rfl
  simp only [restore,ret,Cpu.read,Cpu.top,Cpu.set_self,Cpu.set_of_ne,Cpu.set_mem,Cpu.push_esp,
    Cpu.push_of_ne,Cpu.push_mem,Cpu.drop_esp,Cpu.drop_of_ne,Cpu.drop_mem,Cpu.goto_reg,Cpu.goto_mem,
    ne_eq,reduceCtorEq,not_false_eq_true,h0,h1,h2,h3,h4,h5,read_write,BitVec.sub_add_cancel,
    and_true]
  rfl

theorem setContext_frame {x : Word} (hx : contextSize ≤ x - p.context) :
    setContext m p eip esp x = m x := by
  unfold contextSize at hx
  rw [setContext,write_of_le (by bv_omega),write_of_le (by bv_omega)]

theorem setContext_stacked (m : Mem) (p : Proc) (eip esp : Word) :
    ∃ ebx esi edi ebp, Stacked (setContext m p eip esp) p.context [eip,esp,ebx,esi,edi,ebp] := by
  obtain ⟨_,_,_,_,_,_,h⟩ := stacked_six m p.context
  have ha : p.context + BitVec.ofNat 32 (4 * 0) = p.context := BitVec.add_zero _
  have h0 := set_word h rfl 0 eip (by decide)
  rw [ha] at h0
  exact ⟨_,_,_,_,set_word h0 rfl 1 esp (by decide)⟩

theorem Restores.context (h : Restores t p.context (setContext m p eip esp)) :
    (swtch t).eip = eip ∧ (swtch t).reg .esp = esp ∧
      (swtch t).mem = write (save t).mem (esp - 4) eip := by
  obtain ⟨_,_,_,_,hctx⟩ := setContext_stacked m p eip esp
  obtain ⟨heip,hesp,-,-,-,-,hmem⟩ := h.loads hctx
  exact ⟨heip,hesp,hmem⟩

theorem Restores.entry {sp entry : Word} (h : Restores t p.context (ctxInit m p sp entry))
    (hp : Apart p.context contextSize p.kstack kstackSize)
    (hy : Apart (t.read (t.reg .esp + 4)) contextSize p.kstack kstackSize)
    (hsp : sp - 4 - p.kstack ≤ kstackSize - 4) (hword : Same t.mem (ctxInit m p sp entry) (sp - 4) 4) :
    (swtch t).eip = entry ∧ (swtch t).reg .esp = sp - 4 ∧ (swtch t).top = entry := by
  obtain ⟨heip,hesp,hmem⟩ := h.context
  have hfake : read (ctxInit m p sp entry) (sp - 4) = entry :=
    (read_congr fun x hx => setContext_frame (hp.outside (word_inside hsp hx))).trans read_write
  refine ⟨heip,hesp,?_⟩
  rw [Cpu.top,Cpu.read,hesp,← hfake]
  apply read_congr
  intro x hx
  rw [hmem,write_of_le (above_word (n := 4) hx (by decide)),save_frame t
    (hy.outside (word_inside hsp hx))]
  exact hword x hx

def caller (sp : Word) (m : Mem) : Cpu := ⟨fun _ => sp,0,0,0,0,0,0,false,m⟩

def calls : Mem :=
  write (write (write (write (fun _ => 0) 0x1004 0x2000) 0x1008 0x3000) 0x1104 0x3000) 0x1108 0x2000

def proc : Proc := ⟨0x2000,0x8000,0x8fc4⟩

theorem caller_restores {m : Mem} (hold : read m 0x1104 = 0x3000) (hnew : read m 0x1108 = 0x2000) :
    Restores (caller 0x1100 m) 0x2000 m := by
  have hy : (caller 0x1100 m).read (0x1100 + 4) = 0x3000 := hold
  refine ⟨hnew,?_,fun _ _ => rfl⟩
  exact hy ▸ ⟨by decide,by decide⟩

end TinyOs.Swtch
