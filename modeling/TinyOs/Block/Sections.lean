import TinyOs.Block.Bio

namespace TinyOs.Block

open Option State
open Function (update)
open Locks (Held)

variable {P D C : Type} [DecidableEq P] [DecidableEq D] [DecidableEq C] {ide : Ide D C}
  {s s' : State P D C} {op : Op P D} {o : Option (P × Int)} {p q : P} {c : C}

namespace Pc

def holdsWaiter (w : P) : Pc P D C → Prop
  | waking q _ | woke q _ | going q | handing q => q = w
  | _ => False

def holdsProc : Pc P D C → Prop
  | handing _ | parking _ => True
  | _ => False

def runs (c : C) : Pc P D C → Prop
  | run c' | execute c' _ _ | executed c' _ _ => c' = c
  | endIo _ next | waking _ next | woke _ next => next = some c
  | _ => False

def hand : Pc P D C → Option P
  | execute _ q _ | executed _ q _ | endIo q _ => some q
  | _ => none

def before : Pc P D C → Prop
  | submit | enqueue _ => True
  | _ => False

end Pc

inductive Step (ide : Ide D C) (s : State P D C) : Op P D → State P D C → Prop
  | call {p : P} (bio : Bio D) (hrun : s.state p = .running) (hpc : s.pc p = .idle) :
      Step ide s (.submitBioWait p bio) { s.setPc p .submit with
        bio := update s.bio p bio
        done := update s.done p false
        calls := update s.calls p (s.calls p + 1) }
  | refuse {p : P} (alloc : Bool) (st : Status) (hrun : s.state p = .running)
      (hpc : s.pc p = .submit) :
      Step ide s (.submit p alloc) ((s.setStatus p st).setPc p (.endIo p none))
  | accept {p : P} {alloc : Bool} {d : D} (hrun : s.state p = .running) (hpc : s.pc p = .submit)
      (hd : (s.bio p).disk = some d) :
      Step ide s (.submit p alloc) ((s.setStatus p .ok).setPc p (.enqueue d))
  | push {p : P} {d : D} (hrun : s.state p = .running) (hpc : s.pc p = .enqueue d) :
      Step ide s (.push p) (ideSubmitBio ide s p d)
  | rest {p : P} {c : C} (hrun : s.state p = .running) (hpc : s.pc p = .run c)
      (hpick : ideChanPick ide s c = none) :
      Step ide s (.pick p) { s.setPc p .check with
        busy := update s.busy c false
        curRq := update s.curRq c none }
  | pick {p q : P} {c : C} {d : D} {rest : List P} (hrun : s.state p = .running)
      (hpc : s.pc p = .run c) (hpick : ideChanPick ide s c = some (d,q,rest)) :
      Step ide s (.pick p) { s.setPc p (.execute c q (s.bio q).size) with
        queue := update s.queue d rest
        curRq := update s.curRq c (some q) }
  | sector {p q : P} {c : C} {left : Nat} (hrun : s.state p = .running)
      (hpc : s.pc p = .execute c q left) (hleft : sectSize ≤ left) :
      Step ide s (.sector p true) (s.setPc p (.execute c q (left - sectSize)))
  | finish {p q : P} {c : C} {left : Nat} (ok : Bool) (st : Status) (hrun : s.state p = .running)
      (hpc : s.pc p = .execute c q left) :
      Step ide s (.sector p ok) (s.setPc p (.executed c q st))
  | clear {p q : P} {c : C} {st : Status} (hrun : s.state p = .running)
      (hpc : s.pc p = .executed c q st) :
      Step ide s (.clear p) { (s.setStatus q st).setPc p (.endIo q (some c)) with
        curRq := update s.curRq c none }
  | endIo {p q : P} {next : Option C} (hrun : s.state p = .running) (hpc : s.pc p = .endIo q next)
      (hlock : s.waiterLock q = none) : Step ide s (.endIo p) (bioWaitEndIo s p q next)
  | wake {p q : P} {next : Option C} (hrun : s.state p = .running) (hpc : s.pc p = .waking q next)
      (hlock : s.procLock = none) : Step ide s (.wake p) ((s.wakeup q).setPc p (.woke q next))
  | release {p q : P} {next : Option C} (hrun : s.state p = .running)
      (hpc : s.pc p = .woke q next) :
      Step ide s (.release p) { s.setPc p (next.elim .check .run) with
        waiterLock := update s.waiterLock q none }
  | leave {p : P} (hrun : s.state p = .running) (hpc : s.pc p = .check ∨ s.pc p = .asleep p)
      (hlock : s.waiterLock p = none) (hdone : s.done p = true) :
      Step ide s (.check p) (s.setPc p .idle)
  | going {p : P} (hrun : s.state p = .running) (hpc : s.pc p = .check ∨ s.pc p = .asleep p)
      (hlock : s.waiterLock p = none) (hdone : s.done p = false) :
      Step ide s (.check p) { s.setPc p (.going p) with
        waiterLock := update s.waiterLock p (some p) }
  | handOff {p w : P} (hrun : s.state p = .running) (hpc : s.pc p = .going w)
      (hlock : s.procLock = none) :
      Step ide s (.handOff p) { s.setPc p (.handing w) with procLock := some p }
  | unlock {p w : P} (hrun : s.state p = .running) (hpc : s.pc p = .handing w) :
      Step ide s (.unlock p) { s.setPc p (.parking w) with
        waiterLock := update s.waiterLock w none }
  | park {p w : P} (hrun : s.state p = .running) (hpc : s.pc p = .parking w) :
      Step ide s (.park p) { s.setPc p (.asleep w) with
        state := update s.state p .sleeping
        chan := update s.chan p (some w)
        procLock := none }
  | signal {p : P} (hlock : s.procLock = none) (hsleep : s.state p = .sleeping) :
      Step ide s (.signal p) { s with
        state := update s.state p .runnable
        chan := update s.chan p none }
  | dispatch {p : P} (hlock : s.procLock = none) (hready : s.state p = .runnable) :
      Step ide s (.dispatch p) { s with state := update s.state p .running }

omit [DecidableEq P] [DecidableEq D] [DecidableEq C] in
theorem State.at?_eq_some {pc : Pc P D C} (h : s.at? p = some pc) :
    s.state p = .running ∧ s.pc p = pc := by
  obtain ⟨hrun,he⟩ := ite_none_right_eq_some.mp h
  exact ⟨hrun,Option.some.inj he⟩

theorem step_cases (h : step ide s op = some (s',o)) : Step ide s op s' := by
  cases op with
  | submitBioWait p bio =>
    obtain ⟨hat,he⟩ := ite_none_right_eq_some.mp h
    obtain ⟨hrun,hpc⟩ := at?_eq_some hat
    cases he
    exact .call bio hrun hpc
  | submit p alloc =>
    obtain ⟨hat,he⟩ := ite_none_right_eq_some.mp h
    obtain ⟨hrun,hpc⟩ := at?_eq_some hat
    simp only [submitBio] at he
    split at he
    · cases he
      exact .refuse alloc .notsupp hrun hpc
    rename_i d hd
    split at he
    · cases he
      exact .refuse alloc .ioerr hrun hpc
    · cases he
      exact .accept hrun hpc hd
  | pick p =>
    simp only [step,ideRun] at h
    split at h
    · rename_i c hat
      obtain ⟨hrun,hpc⟩ := at?_eq_some hat
      split at h <;> cases h <;> constructor <;> assumption
    · cases h
  | sector p ok =>
    simp only [step] at h
    split at h
    · rename_i c q left hat
      obtain ⟨hrun,hpc⟩ := at?_eq_some hat
      split at h
      · rename_i hleft
        cases ok with
        | true =>
          cases h
          exact .sector hrun hpc hleft
        | false =>
          cases h
          exact .finish false .ioerr hrun hpc
      · cases h
        exact .finish ok _ hrun hpc
    · cases h
  | endIo p =>
    simp only [step] at h
    split at h
    · rename_i q next hat
      obtain ⟨hrun,hpc⟩ := at?_eq_some hat
      obtain ⟨hlock,he⟩ := ite_none_right_eq_some.mp h
      cases he
      exact .endIo hrun hpc hlock
    · cases h
  | check p =>
    obtain ⟨⟨hat,hlock⟩,he⟩ := ite_none_right_eq_some.mp h
    have hrun : s.state p = .running ∧ (s.pc p = .check ∨ s.pc p = .asleep p) := by
      rcases hat with hat | hat
      · exact (at?_eq_some hat).imp_right .inl
      · exact (at?_eq_some hat).imp_right .inr
    split at he
    · rename_i hdone
      cases he
      exact .leave hrun.1 hrun.2 hlock hdone
    · rename_i hdone
      cases he
      exact .going hrun.1 hrun.2 hlock (Bool.eq_false_iff.mpr hdone)
  | push p | clear p | wake p | release p | handOff p | unlock p | park p =>
    simp only [step] at h
    split at h
    · rename_i hat
      obtain ⟨hrun,hpc⟩ := at?_eq_some hat
      cases h
      constructor <;> assumption
    · cases h
  | signal p | dispatch p =>
    obtain ⟨hs,he⟩ := ite_none_right_eq_some.mp h
    cases he
    constructor
    exacts [hs.1,hs.2]

end TinyOs.Block
