import TinyOs.Ipc.Signal

namespace TinyOs.SignalLoss

open Option

open Function (update update_of_ne update_self)
open Machine (run Always)
open Signal (Word sigbit validSig nsig sigkill sigchld)

inductive Clear where
  | idle
  | picked (sig : Nat)
  | loaded (sig : Nat) (value : Word)
  deriving DecidableEq

structure Proc where
  live : Bool
  forking : Bool
  sighandling : Bool
  sigpending : Word
  sigmasked : Word
  clear : Clear
  owed : Word

def Proc.fresh : Proc := ⟨true,false,false,0,0,.idle,0⟩

def setPending (p : Proc) (sig : Nat) : Proc :=
  { p with sigpending := p.sigpending ||| sigbit sig, owed := p.owed ||| sigbit sig }

def signalSend (p : Proc) (sig : Nat) : Proc :=
  if validSig sig = false ∨ p.live = false then p
  else setPending
    (if sig = sigkill then { p with sigmasked := p.sigmasked &&& ~~~sigbit sig } else p) sig

def signalDequeue (p : Proc) : Option Nat := (List.range nsig).tail.find? fun sig =>
  p.sigpending &&& ~~~p.sigmasked &&& sigbit sig ≠ 0

def signalNotify (p : Proc) : Option Nat :=
  if p.sighandling then if p.sigpending &&& sigbit sigkill ≠ 0 then some sigkill else none
  else signalDequeue p

structure Views (q : Signal.Proc) (p : Proc) : Prop where
  handling : p.sighandling = q.sighandling
  pending : p.sigpending = q.sigpending
  masked : p.sigmasked = q.sigmasked

theorem Views.send {q : Signal.Proc} {p : Proc} {sig : Nat} (h : Views q p) (hlive : p.live = true)
    (hsig : validSig sig = true) : Views (Signal.post q sig) (signalSend p sig) := by
  rw [signalSend,if_neg (by simp [hsig,hlive]),Signal.post]
  split
  · exact ⟨h.handling,congrArg (· ||| _) h.pending,congrArg (· &&& _) h.masked⟩
  · exact ⟨h.handling,congrArg (· ||| _) h.pending,h.masked⟩

theorem Views.quiet {q : Signal.Proc} {p : Proc} (h : Views q p) (hnone : signalNotify p = none)
    (env : Signal.Env) : Signal.signalNotify q env = q := by
  have hloop : ∀ l : List Nat,
      (∀ sig ∈ l, q.sigpending &&& ~~~q.sigmasked &&& sigbit sig = 0) →
        Signal.notifyLoop env l q = q := by
    intro l hl
    induction l with
    | nil => rfl
    | cons sig l ih =>
      rw [Signal.notifyLoop,if_pos (hl sig List.mem_cons_self)]
      exact ih fun k hk => hl k (List.mem_cons_of_mem sig hk)
  rw [signalNotify,h.handling,h.pending] at hnone
  rw [Signal.signalNotify]
  split
  · rfl
  split at hnone
  · rename_i hh
    rw [if_pos hh]
    split at hnone
    · cases hnone
    · exact if_neg ‹_›
  · rename_i hh
    rw [if_neg hh]
    refine hloop _ fun sig hsig => ?_
    rw [signalDequeue,List.find?_eq_none,h.pending,h.masked] at hnone
    simpa using hnone sig hsig

inductive Event where
  | send (sig : Nat)
  | childExit
  | pick
  | load
  | store
  | handler (on : Bool)
  | execve
  | exit
  | publish
  | reset
  | abandon

def Proc.runs (p : Proc) : Prop := p.live ∧ p.forking = false ∧ p.clear = .idle

instance (p : Proc) : Decidable p.runs := inferInstanceAs (Decidable (_ ∧ _))

def Proc.step (p : Proc) : Event → Option Proc
  | .send sig => some (signalSend p sig)
  | .childExit => if p.live then some (setPending p sigchld) else none
  | .pick =>
    if p.runs then
      (signalNotify p).map fun sig => { p with clear := .picked sig }
    else none
  | .load =>
    match p.clear with
    | .picked sig => some { p with clear := .loaded sig p.sigpending }
    | .idle | .loaded _ _ => none
  | .store =>
    match p.clear with
    | .loaded sig value => some { p with
        sigpending := value &&& ~~~sigbit sig, clear := .idle, owed := p.owed &&& ~~~sigbit sig }
    | .idle | .picked _ => none
  | .handler on =>
    if p.runs then some { p with sighandling := on } else none
  | .execve =>
    if p.runs then
      some { p with sighandling := false, sigpending := 0, sigmasked := 0, owed := 0 }
    else none
  | .exit =>
    if p.runs then some { p with live := false, sighandling := false, owed := 0 }
    else none
  -- A child can be signalled once it has an address space, before signal_fork's plain store.
  | .publish => if p.live then none else some { Proc.fresh with forking := true }
  | .reset =>
    if p.forking then
      some { p with forking := false, sighandling := false, sigpending := 0, sigmasked := 0 }
    else none
  | .abandon =>
    if p.forking then some { p with live := false, forking := false, owed := 0 } else none

variable {P : Type} [DecidableEq P]

def step (s : P → Proc) (op : P × Event) : Option ((P → Proc) × Unit) :=
  ((s op.1).step op.2).map fun p => (update s op.1 p,())

def spares (p : Proc) (sig : Nat) : Bool := !p.forking &&
  match p.clear with
  | .loaded k value => sig = k || value.getLsbD (sig - 1)
  | .idle | .picked _ => true

def spared (s : P → Proc) : P × Event → Bool
  | (p,.send sig) => spares (s p) sig
  | (p,.childExit) => spares (s p) sigchld
  | _ => true

structure Kept (p : Proc) : Prop where
  pending : ∀ i, p.owed.getLsbD i → p.sigpending.getLsbD i
  loaded : ∀ k value, p.clear = .loaded k value → ∀ i, p.owed.getLsbD i →
    value.getLsbD i ∨ i = k - 1
  young : p.forking = true → p.owed = 0 ∧ p.clear = .idle

theorem sigbit_getLsbD (sig i : Nat) : (sigbit sig).getLsbD i = decide (i < 32 ∧ i = sig - 1) := by
  rw [sigbit,BitVec.getLsbD_shiftLeft,BitVec.getLsbD_one]
  grind

variable {p q : Proc} {sig : Nat} {s s' : P → Proc} {op : P × Event} {o : Unit}

theorem Kept.setPending (h : Kept p) (hs : spares p sig) : Kept (setPending p sig) := by
  obtain ⟨hf,hs⟩ := (Bool.and_eq_true _ _).mp hs
  have hold : p.forking ≠ true := by simpa using hf
  refine ⟨fun i hi => ?_,fun k value hk i hi => ?_,fun hy => absurd hy hold⟩ <;>
    rw [SignalLoss.setPending,BitVec.getLsbD_or,Bool.or_eq_true] at hi
  · rw [SignalLoss.setPending,BitVec.getLsbD_or,Bool.or_eq_true]
    exact hi.imp_left (h.pending i)
  have hk : p.clear = .loaded k value := hk
  rcases hi with hi | hi
  · exact h.loaded k value hk i hi
  rw [sigbit_getLsbD,decide_eq_true_eq] at hi
  rw [hk] at hs
  rcases (Bool.or_eq_true _ _).mp hs with he | he
  · exact .inr (hi.2.trans (by rw [of_decide_eq_true he]))
  · exact .inl (hi.2 ▸ he)

theorem Kept.empty (hc : p.clear = .idle) (ho : p.owed = 0) : Kept p := by
  refine ⟨fun i hi => ?_,fun k value hk => ?_,fun _ => ⟨ho,hc⟩⟩
  · rw [ho] at hi
    simp at hi
  · rw [hc] at hk
    cases hk

theorem Kept.step (h : Kept p) {e : Event} (hs : p.step e = some q)
    (hsend : ∀ sig, e = .send sig → spares p sig) (hexit : e = .childExit → spares p sigchld) :
    Kept q := by
  cases e with
  | send sig =>
    cases hs
    rw [signalSend]
    split
    · exact h
    split
    · exact Kept.setPending ⟨h.pending,h.loaded,h.young⟩ (hsend sig rfl)
    · exact h.setPending (hsend sig rfl)
  | childExit =>
    obtain ⟨-,⟨⟩⟩ := ite_none_right_eq_some.mp hs
    exact h.setPending (hexit rfl)
  | pick =>
    obtain ⟨⟨-,hf,-⟩,hs⟩ := ite_none_right_eq_some.mp hs
    obtain ⟨sig,-,rfl⟩ := map_eq_some_iff.mp hs
    exact ⟨h.pending,nofun,fun hy => absurd (hf.symm.trans hy) (by decide)⟩
  | load =>
    simp only [Proc.step] at hs
    split at hs
    · rename_i hk
      cases hs
      refine ⟨h.pending,fun k value hk i hi => ?_,fun hy => ?_⟩
      · cases hk
        exact .inl (h.pending i hi)
      · cases hk.symm.trans (h.young hy).2
    · cases hs
    · cases hs
  | store =>
    simp only [Proc.step] at hs
    split at hs
    · rename_i k value hk
      cases hs
      refine ⟨fun i hi => ?_,nofun,fun hy => ?_⟩
      · simp only [BitVec.getLsbD_and,BitVec.getLsbD_not,sigbit_getLsbD,Bool.and_eq_true] at hi ⊢
        refine ⟨(h.loaded k value hk i hi.1).resolve_right fun he => ?_,hi.2⟩
        simp [he] at hi
        omega
      · cases hk.symm.trans (h.young hy).2
    · cases hs
    · cases hs
  | handler on =>
    obtain ⟨-,⟨⟩⟩ := ite_none_right_eq_some.mp hs
    exact ⟨h.pending,h.loaded,h.young⟩
  | execve | exit =>
    obtain ⟨⟨-,-,hc⟩,⟨⟩⟩ := ite_none_right_eq_some.mp hs
    exact .empty hc rfl
  | publish =>
    obtain ⟨-,⟨⟩⟩ := ite_none_left_eq_some.mp hs
    exact .empty rfl rfl
  | reset =>
    obtain ⟨hf,⟨⟩⟩ := ite_none_right_eq_some.mp hs
    exact .empty (h.young hf).2 (h.young hf).1
  | abandon =>
    obtain ⟨hf,⟨⟩⟩ := ite_none_right_eq_some.mp hs
    exact .empty (h.young hf).2 rfl

theorem kept_step (h : ∀ p, Kept (s p)) (hgood : spared s op) (hs : step s op = some (s',o))
    (p : P) : Kept (s' p) := by
  obtain ⟨x,e⟩ := op
  obtain ⟨q,hq,he⟩ := map_eq_some_iff.mp hs
  cases he
  by_cases hp : p = x
  · subst hp
    rw [update_self]
    refine (h p).step hq ?_ ?_
    · rintro sig rfl
      exact hgood
    · rintro rfl
      exact hgood
  · rw [update_of_ne hp]
    exact h p

theorem no_signal_lost_when_spared (s₀ : P → Proc) (h₀ : ∀ p, s₀ p = .fresh)
    (ops : List (P × Event)) (s : P → Proc) (outs : List Unit)
    (hrun : run step s₀ ops = some (s,outs))
    (hgood : Always step (fun s op => spared s op) s₀ ops) (p : P) (i : Nat)
    (howed : (s p).owed.getLsbD i) : (s p).sigpending.getLsbD i := by
  refine (Machine.run_keeps (I := fun s : P → Proc => ∀ p, Kept (s p))
    (fun _ _ _ _ => kept_step) (fun p => ?_) hgood hrun p).pending i howed
  rw [h₀ p]
  exact .empty rfl rfl

theorem no_signal_lost_dequeuing : ∃ s outs, run step (fun _ : Unit => Proc.fresh)
    [((),.send 10),((),.pick),((),.send 12),((),.load),((),.store)] = some (s,outs) ∧
      (s ()).owed = sigbit 12 ∧ (s ()).sigpending.getLsbD 11 :=
  ⟨_,_,rfl,rfl,no_signal_lost_when_spared (fun _ => .fresh) (fun _ => rfl)
    [((),.send 10),((),.pick),((),.send 12),((),.load),((),.store)] _ _ rfl (by decide) () 11 rfl⟩

theorem signal_lost_between_load_and_store : (∃ s outs, run step (fun _ : Unit => Proc.fresh)
    [((),.send 10),((),.pick),((),.load),((),.send 12),((),.store)] = some (s,outs) ∧
      (s ()).owed = sigbit 12 ∧ (s ()).sigpending = 0) ∧
    ∃ s outs, run step (fun _ : Unit => Proc.fresh)
      [((),.exit),((),.publish),((),.send 12),((),.reset)] = some (s,outs) ∧
        (s ()).owed = sigbit 12 ∧ (s ()).sigpending = 0 :=
  ⟨⟨_,_,rfl,rfl,rfl⟩,⟨_,_,rfl,rfl,rfl⟩⟩

end TinyOs.SignalLoss
