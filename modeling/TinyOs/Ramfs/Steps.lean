import TinyOs.Ramfs.Create

namespace TinyOs.Create

variable {P Name : Type}

namespace Pc

def slot : Pc Name → Option Slot
  | filling i | adding i | dentry i | linking i | storing i _ | undo i | putting i => some i
  | done r => r
  | start | choosing | claiming _ => none

def decided : Pc Name → Option Bool
  | undo _ => some false
  | putting _ => some true
  | done r => some r.isSome
  | _ => none

def refs (c : Call Name) : Pc Name → Nat
  | filling _ | adding _ | dentry _ | linking _ | undo _ | putting _ => 1
  | storing _ _ => 2
  | done (some _) => if c.keeps then 1 else 0
  | start | choosing | claiming _ | done none => 0

def Open : Pc Name → Prop
  | filling _ | adding _ | dentry _ | linking _ | storing _ _ | undo _ => True
  | _ => False

def Claims : Pc Name → Prop
  | claiming _ => True
  | _ => False

def Inside : Pc Name → Prop
  | dentry _ | linking _ | storing _ _ => True
  | _ => False

end Pc

def Call.Makes (c : Call Name) : Prop := c.type ≠ none

theorem Call.not_makes_link (old : Source Name) (n : Name) : ¬ (Call.link old n).Makes :=
  not_not_intro rfl

theorem Call.not_makes {c : Call Name} (h : ¬ c.Makes) : ∃ old n, c = .link old n := by
  cases c with
  | link old n => exact ⟨old,n,rfl⟩
  | create n t | mkdir n | symlink n target => exact (h nofun).elim

def Used (s : State P Name) (i : Slot) : Prop := (s.inodes i).type ≠ none

variable {s s' : State P Name} {p : P} {c : Call Name} {mem : Bool}

theorem freeSlot_none (h : s.freeSlot = none) (i : Slot) : Used s i := by
  have hi := List.find?_eq_none.mp h i (List.mem_finRange i)
  rwa [decide_eq_true_eq] at hi

theorem freeSlot_some {i : Slot} (h : s.freeSlot = some i) : ¬ Used s i := by
  have hi := List.find?_some h
  rw [decide_eq_true_eq] at hi
  exact not_not_intro hi

variable [DecidableEq P] [DecidableEq Name]

inductive Moved (c : Call Name) (mem : Bool) (s : State P Name) (p : P) : State P Name → Prop where
  | found (hpc : s.pc p = .start) (hc : c.Makes) (hn : (s.dLookup c.name).isSome) :
      Moved c mem s p (s.at_ p (.done none))
  | absent (hpc : s.pc p = .start) (hc : c.Makes) : Moved c mem s p (s.at_ p .choosing)
  | unresolved {old : Source Name} {n : Name} (hpc : s.pc p = .start) (hc : c = .link old n)
      (hold : ∀ i, s.namei old = some i → (s.inodes i).type = some .dir) :
      Moved c mem s p (s.at_ p (.done none))
  | resolved {old : Source Name} {n : Name} {i : Slot} (hpc : s.pc p = .start)
      (hc : c = .link old n) (hold : s.namei old = some i) (hi : (s.inodes i).type ≠ some .dir) :
      Moved c mem s p ((s.idup i).at_ p (.adding i))
  | full (hpc : s.pc p = .choosing) (hfull : ∀ i, Used s i) : Moved c mem s p (s.at_ p (.done none))
  | chosen {i : Slot} (hpc : s.pc p = .choosing) (hi : ¬ Used s i) :
      Moved c mem s p (s.at_ p (.claiming i))
  | claimed {i : Slot} {pc : Pc Name} (hpc : s.pc p = .claiming i)
      (hnew : pc = .filling i ∨ c.data = none ∧ pc = .adding i) :
      Moved c mem s p ((s.store i ⟨c.type,1,none,some p⟩).at_ p pc)
  | filled {i : Slot} (hpc : s.pc p = .filling i) :
      Moved c mem s p ((s.store i { s.inodes i with data := c.data }).at_ p (.adding i))
  | unfilled {i : Slot} (hpc : s.pc p = .filling i) (hmem : mem = false) :
      Moved c mem s p (s.at_ p (.undo i))
  | taken {i : Slot} (hpc : s.pc p = .adding i) (hn : (s.dLookup c.name).isSome) :
      Moved c mem s p (s.at_ p (.undo i))
  | entered {i : Slot} (hpc : s.pc p = .adding i) (hn : s.dLookup c.name = none) :
      Moved c mem s p (s.at_ p (.dentry i))
  | allocated {i : Slot} (hpc : s.pc p = .dentry i) : Moved c mem s p (s.at_ p (.linking i))
  | unallocated {i : Slot} (hpc : s.pc p = .dentry i) (hmem : mem = false) :
      Moved c mem s p (s.at_ p (.undo i))
  | loaded {i : Slot} (hpc : s.pc p = .linking i) :
      Moved c mem s p ((s.idup i).at_ p (.storing i s.dents))
  | stored {i : Slot} {next : List (Name × Slot)} (hpc : s.pc p = .storing i next) :
      Moved c mem s p ({ s with dents := (c.name,i) :: next }.at_ p (.putting i))
  | undone {i : Slot} {t : State P Name} (hpc : s.pc p = .undo i) (hput : s.iput i = some t) :
      Moved c mem s p (t.at_ p (.done none))
  | kept {i : Slot} (hpc : s.pc p = .putting i) (hk : c.keeps) :
      Moved c mem s p (s.at_ p (.done (some i)))
  | put {i : Slot} {t : State P Name} (hpc : s.pc p = .putting i) (hk : c.keeps = false)
      (hput : s.iput i = some t) : Moved c mem s p (t.at_ p (.done (some i)))

theorem start_moved (hpc : s.pc p = .start) (h : advance s p c mem = some s') :
    Moved c mem s p s' := by
  unfold advance at h
  rw [hpc] at h
  cases c with
  | link old n =>
    dsimp only at h
    split at h
    · rename_i hold
      cases h
      exact .unresolved hpc rfl fun i hi => absurd (hold.symm.trans hi) nofun
    rename_i i hold
    split at h
    · rename_i hdir
      cases h
      refine .unresolved hpc rfl fun j hj => ?_
      cases hold.symm.trans hj
      exact hdir
    · rename_i hdir
      cases h
      exact .resolved hpc rfl hold hdir
  | create n t | mkdir n | symlink n target =>
    cases h
    split
    · rename_i hn
      exact .found hpc nofun hn
    · exact .absent hpc nofun

theorem advance_moved (h : advance s p c mem = some s') : Moved c mem s p s' := by
  cases hpc : s.pc p with
  | start => exact start_moved hpc h
  | choosing =>
    simp only [advance,hpc] at h
    split at h
    · rename_i hnone
      cases h
      exact .full hpc (freeSlot_none hnone)
    · rename_i i hi
      cases h
      exact .chosen hpc (freeSlot_some hi)
  | claiming i =>
    simp only [advance,hpc] at h
    cases h
    refine .claimed hpc ?_
    cases c.data with
    | none => exact .inr ⟨rfl,rfl⟩
    | some target => exact .inl rfl
  | filling i =>
    simp only [advance,hpc] at h
    cases mem with
    | true =>
      cases h
      exact .filled hpc
    | false =>
      cases h
      exact .unfilled hpc rfl
  | adding i =>
    simp only [advance,hpc] at h
    cases h
    split
    · rename_i hn
      exact .taken hpc hn
    · rename_i hn
      exact .entered hpc (Option.not_isSome_iff_eq_none.mp hn)
  | dentry i =>
    simp only [advance,hpc] at h
    cases h
    cases mem with
    | true => exact .allocated hpc
    | false => exact .unallocated hpc rfl
  | linking i =>
    simp only [advance,hpc] at h
    cases h
    exact .loaded hpc
  | storing i next =>
    simp only [advance,hpc] at h
    cases h
    exact .stored hpc
  | undo i =>
    simp only [advance,hpc] at h
    obtain ⟨t,hput,rfl⟩ := Option.map_eq_some_iff.mp h
    exact .undone hpc hput
  | putting i =>
    simp only [advance,hpc] at h
    split at h
    · rename_i hk
      cases h
      exact .kept hpc hk
    · rename_i hk
      obtain ⟨t,hput,rfl⟩ := Option.map_eq_some_iff.mp h
      exact .put hpc (Bool.not_eq_true _ ▸ hk) hput
  | done r =>
    simp only [advance,hpc] at h
    cases h

end TinyOs.Create
