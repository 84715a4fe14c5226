import TinyOs.Sched.Machine

namespace TinyOs.Waitpid

open List

open Function (update update_of_ne update_self)
open Sched (ProcState Slot State)
open Sched.State (isKid isZombieKid setProc unlink)

structure Proc where
  state : ProcState
  pid : Nat
  parent : Option Slot
  xstate : Int
  deriving DecidableEq

abbrev Table := Slot → Proc

def Proc.matches (r : Proc) (pid : Int) : Bool := pid = -1 || (r.pid : Int) = pid

inductive Scan where
  | reaps (np : Slot)
  | nokids
  | sleeps

def scan (t : Table) (parent : Slot) (pid : Int) (havekids : Bool) : List Slot → Scan
  | [] => if havekids then .sleeps else .nokids
  | np :: rest =>
    if (t np).parent ≠ some parent then scan t parent pid havekids rest
    else if (t np).state = .unused then scan t parent pid havekids rest
    else if (t np).state ≠ .zombie then scan t parent pid true rest
    else if !(t np).matches pid then scan t parent pid true rest
    else .reaps np

def zombieReapLocked (t : Table) (p : Slot) : Table :=
  if (t p).state ≠ .zombie then t else update t p ⟨.unused,0,none,0⟩

abbrev Answer := Option (Table × Option (Nat × Int))

def waitTurn (t : Table) (parent : Slot) (pid : Int) : Answer :=
  match scan t parent pid false (List.finRange Sched.nproc) with
  | .reaps np => some (zombieReapLocked t np,some ((t np).pid,(t np).xstate))
  | .nokids => some (t,none)
  | .sleeps => none

-- What the other processes do to the table during each sleep of the caller.
abbrev Others := List (Table → Table)

def waitChild (parent : Slot) (pid : Int) (t : Table) : Others → List Table × Answer
  | [] => ([t],waitTurn t parent pid)
  | e :: rest =>
    match waitTurn t parent pid with
    | some r => ([t],some r)
    | none =>
      let w := waitChild parent pid (e t) rest
      (t :: w.1,w.2)

def sysWaitpid (t : Table) (p : Slot) (pid : Int) (ustatus : Nat) (copyout : Nat → Bool)
    (others : Others) : List Table × Option (Table × Int) :=
  let r := waitChild p pid t others
  (r.1,r.2.map fun a =>
    (a.1,a.2.elim (-1) fun c => if ustatus ≠ 0 ∧ !copyout ustatus then -1 else c.1))

def Child (t : Table) (p i : Slot) : Prop := (t i).parent = some p ∧ (t i).state ≠ .unused

def Dead (t : Table) (p : Slot) (pid : Int) (i : Slot) : Prop :=
  Child t p i ∧ (t i).state = .zombie ∧ (t i).matches pid = true

def NeverDead (p : Slot) (pid : Int) (t : Table) : Others → Prop
  | [] => ∀ i, ¬ Dead t p pid i
  | e :: rest => (∀ i, ¬ Dead t p pid i) ∧ ((∃ i, Child t p i) → NeverDead p pid (e t) rest)

variable {t : Table} {p : Slot} {pid : Int}

theorem scan_find {test kid : Slot → Bool} (htest : ∀ i, test i = true ↔ Dead t p pid i)
    (hkid : ∀ i, kid i = true ↔ Child t p i) (l : List Slot) (b : Bool) : scan t p pid b l =
      (l.find? test).elim (if b || l.any kid then .sleeps else .nokids) .reaps := by
  induction l generalizing b with
  | nil => simp [scan]
  | cons np rest ih =>
    rw [scan,find?_cons,any_cons]
    by_cases hc : Child t p np
    · obtain ⟨hp,hu⟩ := id hc
      by_cases hd : Dead t p pid np
      · simp [(htest np).mpr hd,hp,hd.2]
      have hskip : (t np).state ≠ .zombie ∨ (t np).matches pid = false := by
        rw [Dead,and_iff_right hc,not_and_or] at hd
        exact hd.imp_right Bool.eq_false_iff.mpr
      have htest : test np = false := Bool.eq_false_iff.mpr fun ht => hd ((htest np).mp ht)
      have hrest := ih true
      rcases hskip with hz | hm
      · simpa [hp,hu,hz,htest,(hkid np).mpr hc] using hrest
      · simpa [hp,hu,hm,htest,(hkid np).mpr hc] using hrest
    · rw [Bool.eq_false_iff.mpr fun ht => hc ((htest np).mp ht).1,
        Bool.eq_false_iff.mpr fun hk => hc ((hkid np).mp hk),Bool.false_or,← ih b]
      by_cases hp : (t np).parent = some p
      · simp [hp,not_not.mp fun hu => hc ⟨hp,hu⟩]
      · simp [hp]

theorem scan_spec (l : List Slot) (b : Bool) :
    (∃ i ∈ l, Dead t p pid i ∧ scan t p pid b l = .reaps i) ∨ (∀ i ∈ l, ¬ Dead t p pid i) ∧
        ((b = true ∨ ∃ i ∈ l, Child t p i) ∧ scan t p pid b l = .sleeps ∨
          (b = false ∧ ∀ i ∈ l, ¬ Child t p i) ∧ scan t p pid b l = .nokids) := by
  classical
  rw [scan_find (fun _ => decide_eq_true_iff) (fun _ => decide_eq_true_iff) l b]
  cases hf : l.find? fun i => decide (Dead t p pid i) with
  | some i => exact .inl ⟨i,mem_of_find?_eq_some hf,by simpa using find?_some hf,rfl⟩
  | none =>
    refine .inr ⟨fun i hi hd => find?_eq_none.mp hf i hi (decide_eq_true hd),?_⟩
    by_cases hk : b = true ∨ ∃ i ∈ l, Child t p i
    · exact .inl ⟨hk,if_pos (by simpa using hk)⟩
    · exact .inr ⟨by simpa using hk,if_neg (by simpa using hk)⟩

theorem waitTurn_cases (t : Table) (p : Slot) (pid : Int) :
    (∃ i, Dead t p pid i ∧ waitTurn t p pid =
        some (update t i ⟨.unused,0,none,0⟩,some ((t i).pid,(t i).xstate))) ∨
      (∀ i, ¬ Dead t p pid i) ∧ ((∃ i, Child t p i) ∧ waitTurn t p pid = none ∨
          (∀ i, ¬ Child t p i) ∧ waitTurn t p pid = some (t,none)) := by
  rw [waitTurn]
  rcases scan_spec (finRange Sched.nproc) false with ⟨i,-,hd,h⟩ | ⟨hno,⟨hk,h⟩ | ⟨hk,h⟩⟩ <;>
    rw [h]
  · have hreap : zombieReapLocked t i = update t i ⟨.unused,0,none,0⟩ :=
      if_neg (not_not.mpr hd.2.1)
    exact .inl ⟨i,hd,by rw [← hreap]⟩
  · obtain ⟨i,-,hi⟩ := hk.resolve_left (by decide)
    exact .inr ⟨fun i => hno i (mem_finRange i),.inl ⟨⟨i,hi⟩,rfl⟩⟩
  · exact .inr ⟨fun i => hno i (mem_finRange i),.inr ⟨fun i => hk.2 i (mem_finRange i),rfl⟩⟩

structure Agrees {C : Type} (s : State C) (t : Table) : Prop where
  state : ∀ i, (t i).state = (s.proc i).state
  pid : ∀ i, ((t i).pid : Int) = (s.proc i).pid
  parent : ∀ i, (t i).parent = (s.proc i).parent

namespace Agrees

variable {C : Type} {s : State C}

theorem setPos (h : Agrees s t) (p : Slot) (pos : Sched.At) :
    Agrees (s.setProc p { s.proc p with pos := pos }) t := by
  have hsame : ∀ i, ((s.setProc p { s.proc p with pos := pos }).proc i).state = (s.proc i).state ∧
      ((s.setProc p { s.proc p with pos := pos }).proc i).pid = (s.proc i).pid ∧
      ((s.setProc p { s.proc p with pos := pos }).proc i).parent = (s.proc i).parent := by
    intro i
    by_cases hi : i = p
    · subst hi
      simp [setProc]
    · simp [setProc,update_of_ne hi]
  exact ⟨fun i => (h.state i).trans (hsame i).1.symm,fun i => (h.pid i).trans (hsame i).2.1.symm,
    fun i => (h.parent i).trans (hsame i).2.2.symm⟩

theorem reap {z : Slot} (h : Agrees s t) (hz : (t z).state = .zombie) :
    Agrees (s.zombieReapLocked z).1 (zombieReapLocked t z) := by
  rw [zombieReapLocked,if_neg (not_not.mpr hz)]
  refine ⟨fun i => ?_,fun i => ?_,fun i => ?_⟩ <;>
  · by_cases hi : i = z
    · subst hi
      simp [State.zombieReapLocked,setProc]
    · simp [State.zombieReapLocked,setProc,unlink,update_of_ne hi,h.state,h.pid,h.parent]

theorem waitScan (h : Agrees s t) (p : Slot) (pid : Int) :
    Agrees (s.waitScan p pid).1 ((waitTurn t p pid).elim t Prod.fst) ∧
      (((s.waitScan p pid).1.proc p).pos = .toSleep pid ↔ waitTurn t p pid = none) := by
  have hscan : scan t p pid false (finRange Sched.nproc) =
      ((finRange Sched.nproc).find? (s.isZombieKid p pid)).elim
        (if (finRange Sched.nproc).any (s.isKid p) then .sleeps else .nokids) .reaps := by
    refine scan_find (fun i => ?_) (fun i => ?_) _ false
    · simp [isZombieKid,isKid,Dead,Child,Proc.matches,h.state,h.pid,h.parent,and_assoc]
    · simp [isKid,Child,h.state,h.parent]
  rw [waitTurn,hscan,State.waitScan]
  cases hf : (finRange Sched.nproc).find? (s.isZombieKid p pid) with
  | none =>
    cases ha : (finRange Sched.nproc).any (s.isKid p) with
    | false => simpa [setProc] using h.setPos p .code
    | true => simpa [setProc] using h.setPos p (.toSleep pid)
  | some z =>
    have hz := find?_some hf
    simp only [isZombieKid,Bool.and_eq_true,decide_eq_true_eq] at hz
    exact ⟨(h.reap ((h.state z).trans hz.1.2)).setPos p .code,by simp [setProc]⟩

end Agrees

theorem waitTurn_matching_iff (t : Table) (p : Slot) (pid : Int) : ((waitTurn t p pid = none →
          ∃ i, Child t p i ∧ (t i).state ≠ .zombie ∧ (t i).matches pid = true) ∧
        ((∀ i, Child t p i → (t i).matches pid = false) → waitTurn t p pid = some (t,none)) ∧
        ∀ t' r, waitTurn t p pid = some (t',r) → t' = t ∧ r = none ∨
          ∃ i, Child t p i ∧ (t i).matches pid = true ∧ r = some ((t i).pid,(t i).xstate) ∧
            ∀ j, j ≠ i → t' j = t j) ↔
      ((∃ i, Child t p i) → ∃ i, Child t p i ∧ (t i).matches pid = true) := by
  rcases waitTurn_cases t p pid with ⟨i,hd,hw⟩ | ⟨hnone,⟨hkid,hw⟩ | ⟨hno,hw⟩⟩ <;> rw [hw]
  · refine ⟨fun _ _ => ⟨i,hd.1,hd.2.2⟩,fun _ => ⟨(fun h => by cases h),fun h => ?_,?_⟩⟩
    · cases (h i hd.1).symm.trans hd.2.2
    · rintro t' r ⟨⟩
      exact .inr ⟨i,hd.1,hd.2.2,rfl,fun j hj => update_of_ne hj _ _⟩
  · refine ⟨fun h _ => ?_,fun h => ⟨fun _ => ?_,fun hall => ?_,fun t' r h => by cases h⟩⟩
    · obtain ⟨i,hc,-,hm⟩ := h.1 rfl
      exact ⟨i,hc,hm⟩
    · obtain ⟨i,hc,hm⟩ := h hkid
      exact ⟨i,hc,fun hz => hnone i ⟨hc,hz,hm⟩,hm⟩
    · obtain ⟨i,hc,hm⟩ := h hkid
      cases (hall i hc).symm.trans hm
  · refine ⟨fun _ hk => hk.elim fun i hc => absurd hc (hno i),fun _ => ?_⟩
    refine ⟨(fun h => by cases h),fun _ => rfl,?_⟩
    rintro t' r ⟨⟩
    exact .inl ⟨rfl,rfl⟩

theorem waitChild_last (p : Slot) (pid : Int) (t : Table) (others : Others) :
    ∃ u ∈ (waitChild p pid t others).1.getLast?, (waitChild p pid t others).2 = waitTurn u p pid ∧
      ∀ v ∈ (waitChild p pid t others).1, waitTurn v p pid = none ∨ v = u := by
  induction others generalizing t with
  | nil => exact ⟨t,rfl,rfl,fun v hv => .inr (mem_singleton.mp hv)⟩
  | cons e rest ih =>
    rw [waitChild]
    split
    · rename_i r hr
      exact ⟨t,rfl,hr.symm,fun v hv => .inr (mem_singleton.mp hv)⟩
    rename_i hr
    obtain ⟨u,hu,hans,hall⟩ := ih (e t)
    refine ⟨u,?_,hans,fun v hv => ?_⟩
    · rw [getLast?_cons,Option.mem_def.mp hu]
      rfl
    rcases mem_cons.mp hv with rfl | hv
    · exact .inl hr
    · exact hall v hv

theorem neverDead_iff (t : Table) (others : Others) : NeverDead p pid t others ↔
    ∀ u ∈ (waitChild p pid t others).1, ∀ i, ¬ Dead u p pid i := by
  induction others generalizing t with
  | nil => simp [NeverDead,waitChild]
  | cons e rest ih =>
    rw [NeverDead,waitChild]
    rcases waitTurn_cases t p pid with ⟨i,hd,hw⟩ | ⟨hnone,⟨hkid,hw⟩ | ⟨hno,hw⟩⟩ <;> rw [hw]
    · simp [show ¬ ∀ i, ¬ Dead t p pid i from fun h => h i hd]
    · simp [hnone,hkid,ih]
    · simp [hnone,hno]

theorem wait_child_matching_iff (t : Table) (p : Slot) (pid : Int) (others : Others) :
    (∀ u ∈ (waitChild p pid t others).1,
        (waitTurn u p pid = none →
          ∃ i, Child u p i ∧ (u i).state ≠ .zombie ∧ (u i).matches pid = true) ∧
        ((∀ i, Child u p i → (u i).matches pid = false) →
          (waitChild p pid t others).2 = some (u,none)) ∧
        ∀ t' r, waitTurn u p pid = some (t',r) → (waitChild p pid t others).2 = some (t',r) ∧
          (t' = u ∧ r = none ∨
            ∃ i, Child u p i ∧ (u i).matches pid = true ∧ r = some ((u i).pid,(u i).xstate) ∧
              ∀ j, j ≠ i → t' j = u j)) ↔
      ∀ u ∈ (waitChild p pid t others).1,
        (∃ i, Child u p i) → ∃ i, Child u p i ∧ (u i).matches pid = true := by
  obtain ⟨last,-,hans,hall⟩ := waitChild_last p pid t others
  have hend : ∀ u ∈ (waitChild p pid t others).1, ∀ a, waitTurn u p pid = some a →
      (waitChild p pid t others).2 = some a := by
    intro u hu a ha
    rcases hall u hu with hnone | rfl
    · cases hnone.symm.trans ha
    · exact hans.trans ha
  refine forall₂_congr fun u hu => (Iff.trans ?_ (waitTurn_matching_iff u p pid))
  constructor
  · rintro ⟨hsleep,hnone,hret⟩
    refine ⟨hsleep,fun hno => ?_,fun t' r h => (hret t' r h).2⟩
    have hans' := hnone hno
    rcases hall u hu with h | rfl
    · obtain ⟨i,hc,-,hm⟩ := hsleep h
      cases (hno i hc).symm.trans hm
    · exact hans.symm.trans hans'
  · rintro ⟨hsleep,hnone,hret⟩
    exact ⟨hsleep,fun hno => hend u hu _ (hnone hno),fun t' r h => ⟨hend u hu _ h,hret t' r h⟩⟩

theorem failed_waitpid_keeps_children_iff (t : Table) (p : Slot) (pid : Int) (ustatus : Nat)
    (copyout : Nat → Bool) (others : Others) :
    (∀ t', (sysWaitpid t p pid ustatus copyout others).2 = some (t',-1) →
        (sysWaitpid t p pid ustatus copyout others).1.getLast? = some t') ↔
      ustatus = 0 ∨ copyout ustatus = true ∨ NeverDead p pid t others := by
  obtain ⟨u,hu,hans,hall⟩ := waitChild_last p pid t others
  have hdead : NeverDead p pid t others ↔ ∀ i, ¬ Dead u p pid i := by
    rw [neverDead_iff]
    refine ⟨fun h => h u (mem_of_getLast? hu),fun h v hv => ?_⟩
    rcases hall v hv with hnone | rfl
    · rcases waitTurn_cases v p pid with ⟨i,-,hw⟩ | ⟨hno,-⟩
      · cases hnone.symm.trans hw
      · exact hno
    · exact h
  rw [hdead,sysWaitpid,Option.mem_def.mp hu,hans]
  rcases waitTurn_cases u p pid with ⟨i,hd,hw⟩ | ⟨hnone,⟨hkid,hw⟩ | ⟨hno,hw⟩⟩ <;> rw [hw]
  · refine ⟨fun h => ?_,fun hok t' h => ?_⟩
    · by_contra hno
      rw [not_or,not_or,Bool.not_eq_true] at hno
      have hsame := h (update u i ⟨.unused,0,none,0⟩) (by simp [hno.1,hno.2.1])
      have hstate := hd.2.1
      rw [Option.some.inj hsame,update_self] at hstate
      cases hstate
    have hbad : ¬ (ustatus ≠ 0 ∧ (!copyout ustatus) = true) := by
      rcases hok with h0 | hc | hn
      · exact fun hb => hb.1 h0
      · simp [hc]
      · exact absurd hd (hn i)
    simp only [Option.map_some,Option.elim_some,if_neg hbad,Option.some.injEq,Prod.mk.injEq] at h
    omega
  · exact ⟨fun _ => .inr (.inr hnone),fun _ t' h => by cases h⟩
  · refine ⟨fun _ => .inr (.inr hnone),fun _ t' h => ?_⟩
    cases h
    rfl

def family (state : ProcState) : Table := fun i =>
  if i = 1 then ⟨state,5,some 0,3⟩ else ⟨.unused,0,none,0⟩

theorem wait_child_sleeps_for_stranger : (waitChild 0 7 (family .running) []).2.isNone = true ∧
      ∀ i, Child (family .running) 0 i → (family .running i).matches 7 = false := by
  unfold Child
  decide +kernel

theorem failed_waitpid_loses_child :
    (sysWaitpid (family .running) 0 5 1 (fun _ => false) [fun _ => family .zombie]).2.map
      (fun r => (r.1 1,r.2)) = some (⟨.unused,0,none,0⟩,-1) := by
  decide +kernel

end TinyOs.Waitpid
