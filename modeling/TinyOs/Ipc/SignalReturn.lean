import TinyOs.Ipc.Signal

namespace TinyOs.Signal

open List Option Machine
open Function (update update_of_ne update_self)

variable {n : Nat} {s s' : State n} {op : Op n} {o : Unit} {p q r : Proc} {x y : Fin n} {env : Env}
  {sig : Nat} {handler : Word}

section Frame

variable {mem : Nat → UInt8} {a : Nat} {bs src : List UInt8} {stop : Option Nat}

def InWindow (esp : Word) (a : Nat) : Prop := esp.toNat ≤ a + 19 ∧ a < esp.toNat

theorem poke_of_notMem {x : Nat}
    (h : ¬ (a ≤ x ∧ x < a + bs.length)) : poke mem a bs x = mem x := if_neg h

theorem poke_of_mem {i : Nat} (hi : i < bs.length) : poke mem a bs (a + i) = bs.getD i 0 := by
  rw [poke,if_pos ⟨Nat.le_add_right a i,Nat.add_lt_add_left hi a⟩,Nat.add_sub_cancel_left]

theorem copyout_changes {dstva : Word} (h : (copyout mem dstva src stop).1 a ≠ mem a) :
    dstva.toNat ≤ a ∧ a < dstva.toNat + src.length := by
  by_contra hout
  refine h ?_
  cases stop with
  | none => exact poke_of_notMem hout
  | some k =>
    refine poke_of_notMem ?_
    rw [length_take]
    omega

theorem copyout_within {mem₀ : Nat → UInt8} {W : Nat → Prop} (dstva : Word)
    (src : List UInt8) (stop : Option Nat) (hmem : ∀ a, mem a ≠ mem₀ a → W a)
    (hrange : ∀ a, dstva.toNat ≤ a → a < dstva.toNat + src.length → W a) (a : Nat)
    (h : (copyout mem dstva src stop).1 a ≠ mem₀ a) : W a := by
  by_cases hm : (copyout mem dstva src stop).1 a = mem a
  · rw [hm] at h
    exact hmem a h
  · obtain ⟨hlo,hhi⟩ := copyout_changes hm
    exact hrange a hlo hhi

theorem copyout_true {mem' : Nat → UInt8} {dstva : Word}
    (h : copyout mem dstva src stop = (mem',true)) : mem' = poke mem dstva.toNat src := by
  cases stop with
  | none => exact (Prod.mk.inj h).1.symm
  | some k => cases (Prod.mk.inj h).2

theorem bytes_length (v : Word) : (bytes v).length = 4 := by
  rw [bytes,length_map,length_range]

theorem tramp_length : tramp.length = 8 := rfl

theorem and_not_three (v : Word) : (v &&& ~~~(3 : Word)).toNat = v.toNat / 4 * 4 := by
  have hshift : v &&& ~~~(3 : Word) = (v >>> 2) <<< 2 := by
    apply BitVec.eq_of_getLsbD_eq
    intro i hi
    have hthree : (3 : Word).getLsbD i = decide (i < 2) := by
      revert i
      decide
    simp only [BitVec.getLsbD_and,BitVec.getLsbD_not,hthree,BitVec.getLsbD_shiftLeft,
      BitVec.getLsbD_ushiftRight,hi]
    by_cases h : i < 2
    · simp [h]
    · rw [show 2 + (i - 2) = i by omega]
      simp [h]
  have hv := v.isLt
  rw [hshift,BitVec.toNat_shiftLeft,BitVec.toNat_ushiftRight,Nat.shiftLeft_eq,
    Nat.shiftRight_eq_div_pow]
  omega

structure Placed (esp ret : Word) : Prop where
  below : ret.toNat + 8 ≤ esp.toNat
  near : esp.toNat ≤ ret.toNat + 11
  signum : (ret - 4).toNat = ret.toNat - 4
  retaddr : (ret - 8).toNat = ret.toNat - 8
  room : 8 ≤ ret.toNat

theorem placed {esp : Word} (h : userStackBottom + 64 ≤ esp.toNat) :
    Placed esp ((esp - 8) &&& ~~~(3 : Word)) := by
  have hlt := esp.isLt
  simp only [userStackBottom,userStack,userStackSize,userEnd,kernBase,pgSize] at h
  have hsub : (esp - 8).toNat = esp.toNat - 8 := by bv_omega
  have hret := and_not_three (esp - 8)
  rw [hsub] at hret
  generalize (esp - 8) &&& ~~~(3 : Word) = ret at hret
  exact ⟨by omega,by omega,by bv_omega,by bv_omega,by omega⟩

def Proc.track (p : Proc) : Bool × Option Trapframe × List Trapframe × List Trapframe :=
  (p.sighandling,p.sigold,p.inside,p.saved)

structure Frame (q : Proc) : Prop where
  call : ∀ i < 8, q.mem ((q.tf.esp + 8).toNat + i) = tramp.getD i 0
  ret : ∀ i < 4, q.mem (q.tf.esp.toNat + i) = (bytes (q.tf.esp + 8)).getD i 0

theorem frame_poke {esp ret : Word} (h : Placed esp ret) (signum : Word)
    (hmem : q.mem = poke (poke (poke mem ret.toNat tramp) (ret - 4).toNat (bytes signum))
      (ret - 8).toNat (bytes ret)) (hesp : q.tf.esp = ret - 8) : Frame q := by
  obtain ⟨hbelow,hnear,hsig,hret,hroom⟩ := h
  have hback : q.tf.esp + 8 = ret := by
    rw [hesp,BitVec.sub_add_cancel]
  refine ⟨fun i hi => ?_,fun i hi => ?_⟩
  · rw [hback,hmem,poke_of_notMem,poke_of_notMem,poke_of_mem (tramp_length ▸ hi)]
    · rw [bytes_length]
      omega
    · rw [bytes_length]
      omega
  · rw [hback,hmem,hesp,poke_of_mem (bytes_length ret ▸ hi)]

inductive SetUp (p : Proc) : Proc × Bool → Prop
  | refused (q : Proc) (hmem : ∀ a, q.mem a ≠ p.mem a → InWindow p.tf.esp a)
      (htrack : q.track = p.track) : SetUp p (q,false)
  | done (q : Proc) (hmem : ∀ a, q.mem a ≠ p.mem a → InWindow p.tf.esp a)
      (htrack : q.track = (true,some p.tf,p.tf :: p.inside,p.saved ++ [p.tf]))
      (hcs : q.tf.cs = p.tf.cs) (hframe : Frame q) : SetUp p (q,true)

theorem signalSetupFrame_cases (p : Proc) (sig : Nat) (handler : Word) (env : Env) :
    SetUp p (signalSetupFrame p sig handler env) := by
  have hnone : SetUp p (p,false) := .refused p (fun _ h => absurd rfl h) rfl
  simp only [signalSetupFrame]
  split
  · exact hnone
  split
  · exact hnone
  rename_i hesp
  split
  · exact hnone
  split
  · exact hnone
  have hplaced := placed (not_lt.mp (not_or.mp hesp).1)
  generalize (p.tf.esp - 8) &&& ~~~(3 : Word) = ret at *
  obtain ⟨hbelow,hnear,hsig,hret,hroom⟩ := id hplaced
  have hwindow : ∀ a, ret.toNat - 8 ≤ a → a < ret.toNat + 8 → InWindow p.tf.esp a := by
    intro a hlo hhi
    exact ⟨by omega,by omega⟩
  have h₀ : ∀ a, p.mem a ≠ p.mem a → InWindow p.tf.esp a := fun _ h => absurd rfl h
  have h₁ := copyout_within ret tramp env.tramp h₀ fun a hlo hhi => by
      rw [tramp_length] at hhi
      exact hwindow a (by omega) (by omega)
  split
  · rename_i m₁ he₁
    rw [he₁] at h₁
    exact .refused _ h₁ rfl
  rename_i m₁ he₁
  rw [he₁] at h₁
  have h₂ := copyout_within (ret - 4) (bytes (BitVec.ofNat 32 sig)) env.signum h₁ fun a hlo hhi => by
      rw [bytes_length] at hhi
      exact hwindow a (by omega) (by omega)
  split
  · rename_i m₂ he₂
    rw [he₂] at h₂
    exact .refused _ h₂ rfl
  rename_i m₂ he₂
  rw [he₂] at h₂
  have h₃ := copyout_within (ret - 8) (bytes ret) env.retaddr h₂ fun a hlo hhi => by
      rw [bytes_length] at hhi
      exact hwindow a (by omega) (by omega)
  split
  · rename_i m₃ he₃
    rw [he₃] at h₃
    exact .refused _ h₃ rfl
  rename_i m₃ he₃
  rw [he₃] at h₃
  have hm : m₃ = poke (poke (poke p.mem ret.toNat tramp) (ret - 4).toNat
      (bytes (BitVec.ofNat 32 sig))) (ret - 8).toNat (bytes ret) := by
    rw [copyout_true he₃,copyout_true he₂,copyout_true he₁]
  exact .done _ h₃ rfl rfl (frame_poke hplaced _ hm rfl)

end Frame

section Notify

inductive Notified (p q : Proc) : Prop
  | plain (hmem : q.mem = p.mem) (htf : q.tf = p.tf) (htrack : q.track = p.track)
  | gone (hmem : ∀ a, q.mem a ≠ p.mem a → InWindow p.tf.esp a) (hmode : q.mode = .gone)
      (htrack : q.track = (false,none,[],p.saved))
  | delivered (hmem : ∀ a, q.mem a ≠ p.mem a → InWindow p.tf.esp a) (hfree : p.sighandling = false)
      (htrack : q.track = (true,some p.tf,p.tf :: p.inside,p.saved ++ [p.tf]))
      (hcs : q.tf.cs = p.tf.cs) (hframe : Frame q)

theorem notified_exit (hmem : ∀ a, q.mem a ≠ p.mem a → InWindow p.tf.esp a)
    (hsaved : q.saved = p.saved) : Notified p (exitSignal q) :=
  .gone hmem rfl (by rw [← hsaved]; rfl)

theorem notifyLoop_cases (hfree : p.sighandling = false) (hmem : r.mem = p.mem)
    (htf : r.tf = p.tf) (htrack : r.track = p.track) (sigs : List Nat) :
    Notified p (notifyLoop env sigs r) := by
  induction sigs generalizing r with
  | nil => exact .plain hmem htf htrack
  | cons sig rest ih =>
    have hnone : ∀ a, r.mem a ≠ p.mem a → InWindow p.tf.esp a := by
      intro a ha
      rw [hmem] at ha
      exact absurd rfl ha
    have hsaved : r.saved = p.saved := congrArg (·.2.2.2) htrack
    simp only [notifyLoop]
    split
    · exact ih hmem htf htrack
    split
    · exact notified_exit hnone hsaved
    split
    · exact ih hmem htf htrack
    split
    · split
      · exact notified_exit hnone hsaved
      · exact ih hmem htf htrack
    have hsetup := signalSetupFrame_cases { r with sigpending := r.sigpending &&& ~~~sigbit sig }
      sig (r.sighand sig) env
    generalize signalSetupFrame _ _ _ _ = result at hsetup
    cases hsetup with
    | refused q hq ht =>
      have hwindow : ∀ a, q.mem a ≠ r.mem a → InWindow r.tf.esp a := hq
      rw [hmem,htf] at hwindow
      exact notified_exit hwindow ((congrArg (·.2.2.2) ht).trans hsaved)
    | done q hq ht hcs hframe =>
      have hwindow : ∀ a, q.mem a ≠ r.mem a → InWindow r.tf.esp a := hq
      have htrack' : q.track = (true,some r.tf,r.tf :: r.inside,r.saved ++ [r.tf]) := ht
      have hinside : r.inside = p.inside := congrArg (·.2.2.1) htrack
      have hcs' : q.tf.cs = r.tf.cs := hcs
      rw [hmem,htf] at hwindow
      rw [htf,hinside,hsaved] at htrack'
      rw [htf] at hcs'
      exact .delivered hwindow hfree htrack' hcs' hframe

theorem signalNotify_cases (p : Proc) (env : Env) : Notified p (signalNotify p env) := by
  simp only [signalNotify]
  split
  · exact .plain rfl rfl rfl
  split
  · split
    · exact notified_exit (fun _ h => absurd rfl h) rfl
    · exact .plain rfl rfl rfl
  · rename_i hfree
    exact notifyLoop_cases (Bool.eq_false_iff.mpr hfree) rfl rfl rfl _

end Notify

section Step

inductive Change (s : State n) (op : Op n) (x : Fin n) (q : Proc) : Prop
  | same (h : q.track = (s x).track)
  | cleared (h : q.track = (false,none,[],(s x).saved))
  | delivered (hfree : (s x).sighandling = false)
      (h : q.track = (true,some (s x).tf,(s x).tf :: (s x).inside,(s x).saved ++ [(s x).tf]))
  | returned (h : q = doSigreturn { s x with mode := .kernel })
  | forked (p : Fin n) (r : Result n) (hop : op = .syscall p r) (hnum : (s p).tf.eax = sysFork)
      (h : q.track = (false,none,(s p).inside,[]))

theorem change_update (h : Change s op y r) : Change s op x (update s y r x) := by
  by_cases hx : x = y
  · subst hx
    rw [update_self]
    exact h
  · rw [update_of_ne hx]
    exact .same rfl

theorem update_track (h : r.track = (s y).track) (x : Fin n) :
    (update s y r x).track = (s x).track := by
  by_cases hx : x = y
  · subst hx
    rw [update_self,h]
  · rw [update_of_ne hx]

theorem signalSend_track (s : State n) (pid : Word) (sig : Nat) (x : Fin n) :
    ((signalSend s pid sig).1 x).track = (s x).track := by
  simp only [signalSend]
  split
  · rfl
  split
  · rfl
  refine update_track ?_ x
  rw [post]
  split <;> rfl

theorem doSignal_track (p : Proc) (sig : Nat) (handler : Word) :
    (doSignal p sig handler).1.track = p.track := by
  simp only [doSignal]
  split
  · rfl
  · split <;> rfl

theorem syscall_change {r : Result n} (h : syscall s y r = some s') (x : Fin n) :
    Change s (.syscall y r) x (s' x) := by
  simp only [syscall] at h
  split at h
  · cases h
    exact change_update (.returned rfl)
  split at h
  · cases h
    exact change_update (.cleared rfl)
  split at h
  · rename_i hfork
    split at h
    · cases h
      exact change_update (.same rfl)
    split at h
    · cases h
      by_cases hx : x = y
      · subst hx
        rw [update_self]
        exact .same rfl
      · rw [update_of_ne hx]
        exact change_update (.forked y r rfl hfork rfl)
    · cases h
  split at h
  · split at h
    · cases h
      exact change_update (.same rfl)
    · cases h
      exact change_update (.cleared rfl)
  split at h
  · cases h
    exact change_update (.same (doSignal_track { s y with mode := .kernel } _ _))
  split at h
  · cases h
    have hsent := signalSend_track (update s y { s y with mode := .kernel }) (s y).tf.ebx
      (s y).tf.ecx.toNat
    have hme := update_track (s := s) (y := y) (r := { s y with mode := .kernel }) rfl x
    exact .same ((update_track (by rfl) x).trans ((hsent x).trans hme))
  · cases h
    exact change_update (.same rfl)

theorem notify_change (p : Proc) (env : Env) (hp : p = s x) : Change s op x
    (if (signalNotify p env).mode = .gone then signalNotify p env
      else { signalNotify p env with mode := .user }) := by
  subst hp
  have htrack : ∀ q : Proc,
      (if q.mode = .gone then q else { q with mode := .user }).track = q.track := by
    intro q
    split <;> rfl
  cases signalNotify_cases (s x) env with
  | plain hmem htf ht => exact .same ((htrack _).trans ht)
  | gone hmem hmode ht => exact .cleared ((htrack _).trans ht)
  | delivered hmem hfree ht hcs hframe => exact .delivered hfree ((htrack _).trans ht)

theorem step_change (h : step s op = some (s',o)) (x : Fin n) : Change s op x (s' x) := by
  cases op with
  | run p tf | interrupt p | childExit parent =>
    simp only [step] at h
    split at h
    · cases h
      exact change_update (.same rfl)
    · cases h
  | memory p mem =>
    cases h
    exact change_update (.same rfl)
  | syscall p r =>
    simp only [step] at h
    split at h
    · obtain ⟨t,ht,he⟩ := map_eq_some_iff.mp h
      cases he
      exact syscall_change ht x
    · cases h
  | notify p env =>
    simp only [step] at h
    split at h
    · cases h
      exact change_update (notify_change (s p) env rfl)
    · cases h
  | send pid sig =>
    cases h
    exact .same (signalSend_track s pid sig x)

end Step

section Runs

structure Tracks (p : Proc) : Prop where
  handling : p.sighandling = p.sigold.isSome
  inside : p.inside = p.sigold.toList

def Unforked (s : State n) : Op n → Prop
  | .syscall p _ => (s p).tf.eax = sysFork → (s p).sighandling = false
  | _ => True

instance : DecidablePred (Unforked s)
  | .syscall p _ => inferInstanceAs (Decidable ((s p).tf.eax = sysFork → (s p).sighandling = false))
  | .run _ _ | .memory _ _ | .interrupt _ | .notify _ _ | .send _ _ | .childExit _ => .isTrue trivial

theorem tracks_of_track {a : Bool} {old : Option Trapframe} {inside saved : List Trapframe}
    (h : p.track = (a,old,inside,saved)) (ha : a = old.isSome) (hi : inside = old.toList) :
    Tracks p := by
  cases h
  exact ⟨ha,hi⟩

theorem Tracks.sigreturn (h : Tracks p) : Tracks (doSigreturn p) := by
  obtain ⟨hhandling,hinside⟩ := h
  simp only [doSigreturn]
  split
  · rename_i old hp hold
    rw [hold] at hinside
    exact ⟨rfl,by rw [hinside]; rfl⟩
  rename_i hne
  cases hold : p.sigold with
  | none =>
    rw [hold] at hhandling hinside
    exact ⟨hhandling,by rw [hinside]; rfl⟩
  | some old =>
    rw [hold] at hhandling
    exact absurd hold (hne old hhandling)

theorem tracks_step (h : ∀ x, Tracks (s x)) (hgood : Unforked s op) (hs : step s op = some (s',o))
    (x : Fin n) : Tracks (s' x) := by
  cases step_change hs x with
  | same ht => exact tracks_of_track ht (h x).handling (h x).inside
  | cleared ht => exact tracks_of_track ht rfl rfl
  | delivered hfree ht =>
    have hnone : (s x).sigold = none := by
      rw [← not_isSome_iff_eq_none,← (h x).handling,hfree]
      exact Bool.false_ne_true
    refine tracks_of_track ht rfl ?_
    rw [(h x).inside,hnone]
    rfl
  | returned ht =>
    rw [ht]
    exact Tracks.sigreturn ⟨(h x).handling,(h x).inside⟩
  | forked p r hop hnum ht =>
    subst hop
    have hnone : (s p).sigold = none := by
      rw [← not_isSome_iff_eq_none,← (h p).handling,hgood hnum]
      exact Bool.false_ne_true
    refine tracks_of_track ht rfl ?_
    rw [(h p).inside,hnone]

theorem kept_step (h : ∀ x, ∀ tf ∈ (s x).sigold, tf ∈ (s x).saved)
    (hs : step s op = some (s',o)) (x : Fin n) : ∀ tf ∈ (s' x).sigold, tf ∈ (s' x).saved := by
  have hread : ∀ {q : Proc} {a : Bool} {old : Option Trapframe} {inside saved : List Trapframe},
      q.track = (a,old,inside,saved) → (∀ tf ∈ old, tf ∈ saved) →
      ∀ tf ∈ q.sigold, tf ∈ q.saved := by
    rintro q a old inside saved ⟨⟩ hq
    exact hq
  cases step_change hs x with
  | same ht => exact hread ht (h x)
  | cleared ht | forked p r hop hnum ht => exact hread ht nofun
  | delivered hfree ht =>
    refine hread ht ?_
    rintro tf ⟨⟩
    exact mem_append_right _ (mem_singleton_self _)
  | returned ht =>
    rw [ht]
    simp only [doSigreturn]
    split
    · exact nofun
    · exact h x

theorem sigreturn_step {r : Result n} (hs : step s (.syscall x r) = some (s',o))
    (hnum : (s x).tf.eax = sysSigreturn) : s' x = doSigreturn { s x with mode := .kernel } := by
  simp only [step] at hs
  split at hs
  · obtain ⟨t,ht,he⟩ := map_eq_some_iff.mp hs
    cases he
    rw [syscall,if_pos hnum] at ht
    cases ht
    rw [update_self]
  · cases hs

theorem notify_step (hs : step s (.notify x env) = some (s',o)) : Notified (s x) (s' x) := by
  obtain ⟨-,hs⟩ := ite_none_right_eq_some.mp hs
  cases hs
  rw [update_self]
  have hcases := signalNotify_cases (s x) env
  split
  · exact hcases
  rename_i hmode
  cases hcases with
  | plain hmem htf ht => exact .plain hmem htf ht
  | gone hmem hgone ht => exact absurd hgone hmode
  | delivered hmem hfree ht hcs hframe =>
    exact .delivered hmem hfree ht hcs ⟨hframe.call,hframe.ret⟩

theorem sigreturn_restores_context (s₀ : State n) (h₀ : ∀ x, (s₀ x).track = (false,none,[],[]))
    (ops : List (Op n)) (s : State n) (outs : List Unit) (hrun : run step s₀ ops = some (s,outs)) :
    (∀ x r s' o, step s (.syscall x r) = some (s',o) → (s x).tf.eax = sysSigreturn →
      (s' x).tf = (s x).tf ∨ (s' x).tf ∈ (s x).saved) ∧
    (∀ x env s' o, step s (.notify x env) = some (s',o) →
      (∀ a, (s' x).mem a ≠ (s x).mem a → InWindow (s x).tf.esp a) ∧
        ((s' x).inside = (s x).tf :: (s x).inside → Frame (s' x))) ∧
    (Always step Unforked s₀ ops → ∀ x, (s x).inside.length ≤ 1 ∧
      ∀ r s' o ctx rest, step s (.syscall x r) = some (s',o) → (s x).tf.eax = sysSigreturn →
        (s x).inside = ctx :: rest → (s' x).tf = ctx) := by
  refine ⟨fun x r s' o hs hnum => ?_,fun x env s' o hs => ?_,fun hgood x => ?_⟩
  · have hkept : ∀ x, ∀ tf ∈ (s x).sigold, tf ∈ (s x).saved := by
      refine run_preserves (I := fun s : State n => ∀ x, ∀ tf ∈ (s x).sigold, tf ∈ (s x).saved)
        (fun _ _ _ _ => kept_step) (fun x tf htf => ?_) hrun
      have hnone : (s₀ x).sigold = none := congrArg (·.2.1) (h₀ x)
      rw [hnone] at htf
      cases htf
    rw [sigreturn_step hs hnum]
    simp only [doSigreturn]
    split
    · rename_i old hp hold
      exact .inr (hkept x old hold)
    · exact .inl rfl
  · cases notify_step hs with
    | plain hmem htf ht =>
      refine ⟨fun a ha => absurd (congrFun hmem a) ha,fun hin => ?_⟩
      have hsame : (s' x).inside = (s x).inside := congrArg (·.2.2.1) ht
      rw [hsame] at hin
      exact absurd hin (cons_ne_self _ _).symm
    | gone hmem hmode ht =>
      refine ⟨hmem,fun hin => ?_⟩
      have hnil : (s' x).inside = [] := congrArg (·.2.2.1) ht
      rw [hnil] at hin
      cases hin
    | delivered hmem hfree ht hcs hframe => exact ⟨hmem,fun _ => hframe⟩
  · have htracks : ∀ x, Tracks (s x) :=
      run_keeps (I := fun s : State n => ∀ x, Tracks (s x))
        (fun _ _ _ _ h hg hs => tracks_step h hg hs)
        (fun x => tracks_of_track (h₀ x) rfl rfl) hgood hrun
    obtain ⟨hhandling,hinside⟩ := htracks x
    refine ⟨?_,fun r s' o ctx rest hs hnum hctx => ?_⟩
    · rw [hinside]
      exact length_toList_le
    rw [sigreturn_step hs hnum]
    cases hold : (s x).sigold with
    | none =>
      rw [hinside,hold] at hctx
      cases hctx
    | some old =>
      rw [hold] at hhandling hinside
      rw [hinside] at hctx
      cases hctx
      simp only [doSigreturn,hold,hhandling,isSome_some]

end Runs

section Forks

def Proc.view (p : Proc) : Mode × Trapframe × (Nat → UInt8) × Word :=
  (p.mode,p.tf,p.mem,p.sigpending)

structure ResumesLike (p q : Proc) : Prop where
  returns : ∀ tf mem, tf.eax = sysSigreturn → (doSigreturn { q with tf := tf, mem := mem }).tf =
    (doSigreturn { p with tf := tf, mem := mem }).tf
  holds : ∀ tf mem bits env, bits &&& p.sigmasked = 0 →
    (signalNotify { q with tf := tf, mem := mem, sigpending := bits } env).view =
      (signalNotify { p with tf := tf, mem := mem, sigpending := bits } env).view

abbrev asChild (i : Word) (p : Proc) : Proc :=
  { p with pid := i, sigmasked := 0, sigold := none, saved := [] }

theorem and_not_of_disjoint {a m : Word} (h : a &&& m = 0) : a &&& ~~~m = a := by
  refine BitVec.eq_of_getLsbD_eq fun i hi => ?_
  have hbit := congrArg (BitVec.getLsbD · i) h
  simp only [BitVec.getLsbD_and,BitVec.ofNat_eq_ofNat,BitVec.getLsbD_zero] at hbit
  simp only [BitVec.getLsbD_and,BitVec.getLsbD_not,hi]
  cases ha : a.getLsbD i with
  | false => rfl
  | true =>
    rw [ha,Bool.true_and] at hbit
    simp [hbit]

theorem signalSetupFrame_asChild (i : Word) (p : Proc) (sig : Nat) (handler : Word) (env : Env) :
    (signalSetupFrame (asChild i p) sig handler env).map Proc.view id =
      (signalSetupFrame p sig handler env).map Proc.view id := by
  simp only [signalSetupFrame]
  split_ifs
  · rfl
  · rfl
  · rfl
  · rfl
  rcases copyout p.mem _ tramp env.tramp with ⟨m,_ | _⟩
  · rfl
  dsimp only
  rcases copyout m _ _ env.signum with ⟨m,_ | _⟩
  · rfl
  dsimp only
  rcases copyout m _ _ env.retaddr with ⟨m,_ | _⟩ <;> rfl

theorem notifyLoop_asChild (i : Word) (sigs : List Nat) (h : p.sigpending &&& p.sigmasked = 0) :
    (notifyLoop env sigs (asChild i p)).view = (notifyLoop env sigs p).view := by
  induction sigs generalizing p with
  | nil => rfl
  | cons sig rest ih =>
    have hkeep : p.sigpending &&& ~~~sigbit sig &&& p.sigmasked = 0 := by
      rw [BitVec.and_assoc,BitVec.and_comm (~~~_),← BitVec.and_assoc,h]
      exact BitVec.zero_and
    have hrest := ih (p := { p with sigpending := p.sigpending &&& ~~~sigbit sig }) hkeep
    have hzero : p.sigpending &&& ~~~(0 : Word) = p.sigpending :=
      and_not_of_disjoint BitVec.and_zero
    simp only [notifyLoop,and_not_of_disjoint h,hzero]
    split_ifs
    · exact ih h
    · rfl
    · exact hrest
    · rfl
    · exact hrest
    have hframe := signalSetupFrame_asChild i
      { p with sigpending := p.sigpending &&& ~~~sigbit sig } sig (p.sighand sig) env
    generalize signalSetupFrame (asChild i _) _ _ _ = a at hframe ⊢
    generalize signalSetupFrame _ _ _ _ = b at hframe ⊢
    obtain ⟨a,da⟩ := a
    obtain ⟨b,db⟩ := b
    obtain ⟨hview,hdone⟩ := Prod.mk.inj hframe
    obtain rfl : da = db := hdone
    cases da with
    | true => exact hview
    | false => exact congrArg (fun v => (Mode.gone,v.2)) hview

theorem handling_step (h : ∀ x, (s x).sighandling = (s x).sigold.isSome)
    (hs : step s op = some (s',o)) (x : Fin n) : (s' x).sighandling = (s' x).sigold.isSome := by
  have hread : ∀ {q : Proc} {a : Bool} {old : Option Trapframe} {inside saved : List Trapframe},
      q.track = (a,old,inside,saved) → a = old.isSome → q.sighandling = q.sigold.isSome := by
    rintro q a old inside saved ⟨⟩ hq
    exact hq
  cases step_change hs x with
  | same ht => exact hread ht (h x)
  | cleared ht | delivered _ ht | forked _ _ _ _ ht => exact hread ht rfl
  | returned ht =>
    rw [ht]
    simp only [doSigreturn]
    split
    · rfl
    · exact h x

theorem fork_step {r : Result n} (hs : step s (.syscall x r) = some (s',o))
    (hnum : (s x).tf.eax = sysFork) (hy : r.child = some y) :
    s' x = setEax { s x with mode := .kernel } r.ret ∧
      s' y = forkChild { s x with mode := .kernel } r.ret := by
  obtain ⟨huser,hs⟩ := ite_none_right_eq_some.mp hs
  obtain ⟨t,ht,he⟩ := map_eq_some_iff.mp hs
  cases he
  have h1 : sysFork ≠ sysSigreturn := by decide
  have h2 : sysFork ≠ sysExit := by decide
  simp only [syscall,hnum,if_neg h1,if_neg h2,if_true,hy] at ht
  obtain ⟨hgone,ht⟩ := ite_none_right_eq_some.mp ht
  cases ht
  have hne : y ≠ x := by
    rintro rfl
    rw [huser] at hgone
    cases hgone
  rw [update_self,update_of_ne hne,update_self]
  exact ⟨rfl,rfl⟩

theorem forked_child_resumes_iff (s₀ : State n) (h₀ : ∀ x, (s₀ x).track = (false,none,[],[]))
    (ops : List (Op n)) (s : State n) (outs : List Unit) (hrun : run step s₀ ops = some (s,outs))
    (x y : Fin n) (r : Result n) (s' : State n) (o : Unit)
    (hs : step s (.syscall x r) = some (s',o)) (hnum : (s x).tf.eax = sysFork)
    (hy : r.child = some y) : ResumesLike (s' x) (s' y) ↔ (s x).sighandling = false := by
  have hold : (s x).sighandling = (s x).sigold.isSome := by
    refine run_preserves (I := fun s : State n => ∀ x, (s x).sighandling = (s x).sigold.isSome)
      (fun _ _ _ _ => handling_step) (fun x => ?_) hrun x
    have := h₀ x
    cases hp : s₀ x
    rw [hp] at this
    cases this
    rfl
  obtain ⟨hx,hchild⟩ := fork_step hs hnum hy
  rw [hx,hchild]
  constructor
  · intro h
    by_contra hon
    rw [Bool.not_eq_false] at hon
    obtain ⟨ctx,hctx⟩ := isSome_iff_exists.mp (hold.symm.trans hon)
    have hsame := h.returns { ctx with eax := sysSigreturn, eip := ctx.eip + 1 } (s x).mem rfl
    simp only [doSigreturn,setEax,forkChild,signalFork,hon,hctx] at hsame
    have heip : ctx.eip + 1 = ctx.eip := congrArg Trapframe.eip hsame
    exact absurd heip (by bv_omega)
  · intro hoff
    refine ⟨fun tf mem _ => ?_,fun tf mem bits env hbits => ?_⟩
    · simp only [doSigreturn,setEax,forkChild,signalFork,hoff]
    · simp only [signalNotify,setEax,forkChild,signalFork,hoff,Bool.false_eq_true,if_false]
      split_ifs
      · rfl
      · exact notifyLoop_asChild (p := { s x with
          mode := .kernel, tf := tf, mem := mem, sigpending := bits, sighandling := false })
          r.ret _ hbits

end Forks

section Examples

def userFrame (eax ebx ecx : Word) : Trapframe :=
  ⟨0,0,0,0,ebx,0,ecx,eax,0x23,0,0x400100,0x1b,0x202,0xbffff000,0x23⟩

def works : Env := ⟨true,none,none,none⟩

def returns (ret : Word) : Result 2 := ⟨ret,none,none⟩

def oneProcess : State 2 := fun x =>
  ⟨if x = 0 then .user else .gone,if x = 0 then 1 else 0,userFrame 0 0 0,fun _ => 0,fun _ => sigDfl,
    0,0,false,none,[],[]⟩

def deliverOps : List (Op 2) :=
  [.run 0 (userFrame sysSignal 10 0x400000),.syscall 0 (returns 0),.notify 0 works,
    .run 0 (userFrame 5 6 7),.send 1 10,.interrupt 0,.notify 0 works]

def sigreturnOps : List (Op 2) := deliverOps ++ [.run 0 (userFrame sysSigreturn 0 0)]

theorem sigreturn_restores_context_once : ∃ s outs,
    run step oneProcess sigreturnOps = some (s,outs) ∧ (s 0).inside = [userFrame 5 6 7] ∧
      ∀ s' o, step s (.syscall 0 (returns 0)) = some (s',o) → (s' 0).tf = userFrame 5 6 7 := by
  have hgood : Always step Unforked oneProcess sigreturnOps := by decide +kernel
  refine run_shows (fun s => (s 0).inside = [userFrame 5 6 7] ∧
    (s 0).tf.eax = sysSigreturn) (by decide +kernel) fun s outs hs h => ⟨h.1,fun s' o hstep => ?_⟩
  exact ((sigreturn_restores_context oneProcess (fun _ => rfl) _ s outs hs).2.2 hgood 0).2
    _ s' o _ _ hstep h.2 h.1

def forkOps : List (Op 2) :=
  deliverOps ++ [.run 0 (userFrame sysFork 0 0),.syscall 0 ⟨2,some 1,none⟩,.notify 1 works]

theorem forked_handler_does_not_return :
    (∃ s outs, run step oneProcess (forkOps ++ [.run 1 (userFrame sysSigreturn 0 0)]) = some (s,outs) ∧
      (s 1).inside = [userFrame 5 6 7] ∧ (s 1).tf.eax = sysSigreturn ∧
      ∃ s' o, step s (.syscall 1 (returns 0)) = some (s',o) ∧
        (s' 1).tf = userFrame sysSigreturn 0 0) ∧
    ∃ s outs, run step oneProcess (forkOps ++ [.send 2 10,.interrupt 1,.notify 1 works]) =
      some (s,outs) ∧ (s 1).inside.length = 2 := by
  refine ⟨run_shows (fun s => (s 1).inside = [userFrame 5 6 7] ∧
    (s 1).tf.eax = sysSigreturn ∧ (step s (.syscall 1 (returns 0))).any
      (fun r => (r.1 1).tf = userFrame sysSigreturn 0 0) = true) (by decide +kernel) ?_,
    run_reaches (by decide +kernel)⟩
  intro s outs hs h
  obtain ⟨⟨s',o⟩,hs',htf⟩ := exists_of_any h.2.2
  exact ⟨h.1,h.2.1,s',o,hs',htf⟩

theorem forked_child_resumes_outside_handler : ∃ s outs s' o,
    run step oneProcess [.run 0 (userFrame sysFork 0 0)] = some (s,outs) ∧
      step s (.syscall 0 ⟨2,some 1,none⟩) = some (s',o) ∧ ResumesLike (s' 0) (s' 1) :=
  ⟨_,_,_,_,rfl,rfl,(forked_child_resumes_iff oneProcess (fun _ => rfl)
    [.run 0 (userFrame sysFork 0 0)] _ _ rfl 0 1 ⟨2,some 1,none⟩ _ _ rfl rfl rfl).mpr rfl⟩

theorem forked_child_in_handler_differs :
    ∃ s outs, run step oneProcess (deliverOps ++ [.run 0 (userFrame sysFork 0 0)]) = some (s,outs) ∧
      (s 0).sighandling = true ∧ ∃ s' o, step s (.syscall 0 ⟨2,some 1,none⟩) = some (s',o) ∧
        (doSigreturn { s' 0 with tf := userFrame sysSigreturn 0 0 }).tf = userFrame 5 6 7 ∧
        (doSigreturn { s' 1 with tf := userFrame sysSigreturn 0 0 }).tf = userFrame sysSigreturn 0 0 ∧
        (signalNotify { s' 0 with sigpending := sigbit 10 } works).sigpending = sigbit 10 ∧
        (signalNotify { s' 1 with sigpending := sigbit 10 } works).tf.eip = 0x400000 := by
  refine run_shows (fun s => (s 0).sighandling = true ∧
    (step s (.syscall 0 ⟨2,some 1,none⟩)).any (fun r =>
      (doSigreturn { r.1 0 with tf := userFrame sysSigreturn 0 0 }).tf = userFrame 5 6 7 ∧
      (doSigreturn { r.1 1 with tf := userFrame sysSigreturn 0 0 }).tf = userFrame sysSigreturn 0 0 ∧
      (signalNotify { r.1 0 with sigpending := sigbit 10 } works).sigpending = sigbit 10 ∧
      (signalNotify { r.1 1 with sigpending := sigbit 10 } works).tf.eip = 0x400000) = true)
    (by decide +kernel) fun s outs hs h => ⟨h.1,?_⟩
  obtain ⟨⟨s',o⟩,hs',hshown⟩ := exists_of_any h.2
  exact ⟨s',o,hs',hshown⟩

end Examples

end TinyOs.Signal
