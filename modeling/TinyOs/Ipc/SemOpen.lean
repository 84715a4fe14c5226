import TinyOs.Library.Count
import TinyOs.Library.Machine

namespace TinyOs.SemOpen

open Finset Machine

open Function (update update_self update_of_ne)

def semValueMax : Int := 32767

structure Args where
  creat : Bool
  excl : Bool
  value : Int

inductive Pc where
  | shmget
  | shmat
  | test
  | setValue
  | setMagic
  | opened
  | failed
  | load
  | cas (v : Int)
  | add
  | sub
  | wake
  deriving DecidableEq

structure State (ι : Type) where
  segment : Bool
  magic : Bool
  value : Int
  pc : ι → Pc
  inits : List (ι × Int)
  posts : Nat
  waits : Nat

inductive Op (ι : Type) where
  | go (p : ι)
  | fail (p : ι)
  | semPost (p : ι)
  | semWait (p : ι)

variable {ι : Type} [DecidableEq ι]

def State.goto (s : State ι) (p : ι) (c : Pc) : State ι := { s with pc := update s.pc p c }

def Args.created (a : Args) : Bool := a.creat && a.excl

def go (args : ι → Args) (s : State ι) (p : ι) : Option (State ι) :=
  match s.pc p with
  | .shmget =>
    if (args p).creat ∧ semValueMax < (args p).value then some (s.goto p .failed)
    else if s.segment then some (s.goto p (if (args p).created then .failed else .shmat))
    else if (args p).creat then some { s.goto p .shmat with segment := true }
    else some (s.goto p .failed)
  | .shmat => some (s.goto p .test)
  | .test => some (s.goto p (if (args p).created ∨ s.magic = false then .setValue else .opened))
  | .setValue =>
    let v := if (args p).creat then (args p).value else 0
    some { s.goto p .setMagic with value := v, inits := s.inits ++ [(p,v)] }
  | .setMagic => some { s.goto p .opened with magic := true }
  | .load => some (s.goto p (if s.value ≤ 0 then .load else .cas s.value))
  | .cas v =>
    if s.value = v then some { s.goto p .opened with value := v - 1, waits := s.waits + 1 }
    else some (s.goto p .load)
  | .add =>
    if semValueMax ≤ s.value then some { s.goto p .sub with value := s.value + 1 }
    else if s.value = 0 then some { s.goto p .wake with value := s.value + 1 }
    else some { s.goto p .opened with value := s.value + 1, posts := s.posts + 1 }
  | .sub => some { s.goto p .opened with value := s.value - 1 }
  | .wake => some { s.goto p .opened with posts := s.posts + 1 }
  | .opened | .failed => none

def step (args : ι → Args) (s : State ι) : Op ι → Option (State ι × Unit)
  | .go p => (go args s p).map (·,())
  | .fail p => if s.pc p = .shmget ∨ s.pc p = .shmat then some (s.goto p .failed,()) else none
  | .semPost p => if s.pc p = .opened then some (s.goto p .add,()) else none
  | .semWait p => if s.pc p = .opened then some (s.goto p .load,()) else none

def start : State ι := ⟨false,false,0,fun _ => .shmget,[],0,0⟩

def Storing (c : Pc) : Prop := c = .setValue ∨ c = .setMagic

instance Storing.instDecidable : DecidablePred Storing := fun _ => inferInstanceAs (Decidable (_ ∨ _))

def Using : Pc → Prop
  | .opened | .load | .cas _ | .add | .sub | .wake => True
  | _ => False

def Calm (args : ι → Args) (s : State ι) : Op ι → Prop
  | .go p => s.pc p = .test →
    (s.magic = true → (args p).created = false) ∧ (s.magic = false → ∀ q, ¬ Storing (s.pc q))
  | _ => True

def pending : Pc → Int
  | .sub | .wake => 1
  | _ => 0

def Quiescent (s : State ι) : Prop := ∀ p, s.pc p = .shmget ∨ s.pc p = .opened ∨ s.pc p = .failed

instance Quiescent.instDecidable [Fintype ι] : DecidablePred (Quiescent : State ι → Prop) :=
  fun _ => inferInstanceAs (Decidable (∀ _, _))

instance Calm.instDecidable [Fintype ι] (args : ι → Args) (s : State ι) (a : Op ι) :
    Decidable (Calm args s a) := by
  cases a <;> unfold Calm <;> infer_instance

structure Once (s : State ι) : Prop where
  atMost : s.inits.length ≤ 1
  before : ∀ p, Using (s.pc p) → s.inits.length = 1
  value : Quiescent s → ∀ q v, (q,v) ∈ s.inits → s.value = v + s.posts - s.waits

variable [Fintype ι] {args : ι → Args} {s t : State ι} {p : ι} {c : Pc} {a : Op ι}

def State.balance (s : State ι) : Int := s.value - s.posts + s.waits - ∑ p, pending (s.pc p)

structure Inv (s : State ι) : Prop where
  unique : ∀ p q, Storing (s.pc p) → Storing (s.pc q) → p = q
  closed : ∀ p, Storing (s.pc p) → s.magic = false
  users : ∀ p, Using (s.pc p) → s.magic = true
  unused : s.magic = false → s.posts = 0 ∧ s.waits = 0
  fresh : s.magic = false → (∀ p, s.pc p ≠ .setMagic) → s.inits = []
  stored : (s.magic = true ∨ ∃ p, s.pc p = .setMagic) → ∃ q, s.inits = [(q,s.balance)]

theorem Using.not_storing (h : Using c) : ¬ Storing c := by
  rintro (rfl | rfl) <;> exact h

section Kept

variable {v : Int} {m n : Nat} {g : Bool}

theorem Inv.kept (h : Inv s) (hold : ¬ Storing (s.pc p)) (hnew : ¬ Storing c)
    (huse : Using c → s.magic = true) (hcount : s.magic = false → m = s.posts ∧ n = s.waits)
    (hbal : v - m + n - pending c = s.value - s.posts + s.waits - pending (s.pc p)) :
    Inv { s.goto p c with value := v, posts := m, waits := n, segment := g } := by
  have hstoring : ∀ q, Storing (update s.pc p c q) → Storing (s.pc q) := by
    intro q hq
    by_cases hqp : q = p
    · rw [hqp,update_self] at hq
      exact absurd hq hnew
    · rwa [update_of_ne hqp] at hq
  have hmagic : ∀ q, update s.pc p c q = .setMagic ↔ s.pc q = .setMagic := by
    intro q
    by_cases hqp : q = p
    · rw [hqp,update_self]
      exact ⟨fun hq => absurd (.inr hq) hnew,fun hq => absurd (.inr hq) hold⟩
    · rw [update_of_ne hqp]
  have hsum := Count.sum_update_add univ (fun _ => pending) s.pc (mem_univ p) c
  refine ⟨fun q r hq hr => h.unique q r (hstoring q hq) (hstoring r hr),
    fun q hq => h.closed q (hstoring q hq),fun q hq => ?_,fun hm => ?_,fun hm hq => ?_,?_⟩
  · by_cases hqp : q = p
    · simp only [State.goto,hqp,update_self] at hq
      exact huse hq
    · simp only [State.goto,update_of_ne hqp] at hq
      exact h.users q hq
  · rw [(hcount hm).1,(hcount hm).2]
    exact h.unused hm
  · exact h.fresh hm fun q => (not_congr (hmagic q)).mp (hq _)
  · simp only [State.goto,State.balance,hmagic]
    rw [show v - m + n - ∑ q, pending (update s.pc p c q) = s.balance by
      simp only [State.balance]; omega]
    exact h.stored

theorem Inv.move (h : Inv s) (hold : ¬ Storing (s.pc p)) (hnew : ¬ Storing c)
    (huse : Using c → s.magic = true) (hpend : pending c = pending (s.pc p)) :
    Inv { s.goto p c with segment := g } :=
  h.kept hold hnew huse (fun _ => ⟨rfl,rfl⟩) (by rw [hpend]; rfl)

theorem Inv.work (h : Inv s) (hold : Using (s.pc p)) (hnew : Using c)
    (hbal : v - m + n - pending c = s.value - s.posts + s.waits - pending (s.pc p)) :
    Inv { s.goto p c with value := v, posts := m, waits := n } := by
  have hm := h.users p hold
  refine h.kept hold.not_storing hnew.not_storing (fun _ => hm) (fun h => ?_) hbal
  rw [hm] at h
  cases h

end Kept

theorem pending_eq_zero (h : ¬ Using c) : pending c = 0 := by
  cases c <;> first | rfl | exact absurd trivial h

omit [DecidableEq ι] in
theorem Inv.idle (h : Inv s) (hm : s.magic = false) (q : ι) : pending (s.pc q) = 0 := by
  refine pending_eq_zero fun hq => ?_
  rw [h.users q hq] at hm
  cases hm

theorem Inv.alone {b : Bool} {inits : List (ι × Int)} {v : Int} (h : Inv s)
    (halone : ∀ q, q ≠ p → ¬ Storing (s.pc q)) (hm : s.magic = false)
    (hclosed : Storing c → b = false) (husers : Using c → b = true) (hpend : pending c = 0)
    (hfresh : b = false → c ≠ .setMagic → inits = [])
    (hstored : b = true ∨ c = .setMagic → ∃ q, inits = [(q,v)]) :
    Inv { s.goto p c with magic := b, value := v, inits := inits } := by
  have hother : ∀ q, Storing (update s.pc p c q) → q = p := by
    intro q hq
    by_contra hqp
    rw [update_of_ne hqp] at hq
    exact halone q hqp hq
  have hsum : ∑ q, pending (update s.pc p c q) = 0 := by
    refine sum_eq_zero fun q _ => ?_
    by_cases hqp : q = p
    · rw [hqp,update_self,hpend]
    · rw [update_of_ne hqp,h.idle hm]
  have hself : (s.goto p c).pc p = c := by simp only [State.goto,update_self]
  refine ⟨fun q r hq hr => (hother q hq).trans (hother r hr).symm,fun q hq => ?_,fun q hq => ?_,
    fun _ => h.unused hm,fun hb hq => hfresh hb (hself ▸ hq p),fun hor => ?_⟩
  · rw [hother q hq,hself] at hq
    exact hclosed hq
  · by_cases hqp : q = p
    · rw [hqp,hself] at hq
      exact husers hq
    simp only [State.goto,update_of_ne hqp] at hq
    rw [h.users q hq] at hm
    cases hm
  · have hc : b = true ∨ c = .setMagic := by
      refine hor.imp_right fun hex => ?_
      obtain ⟨q,hq⟩ := hex
      rwa [hother q (.inr hq),hself] at hq
    obtain ⟨q,hq⟩ := hstored hc
    refine ⟨q,hq.trans ?_⟩
    simp only [State.balance,State.goto,hsum,h.unused hm,Nat.cast_zero,Int.sub_zero,Int.add_zero]

def Outside (c : Pc) : Prop := ¬ Storing c ∧ ¬ Using c

theorem Inv.early {g : Bool} (h : Inv s) (hold : Outside (s.pc p)) (hnew : Outside c) :
    Inv { s.goto p c with segment := g } :=
  h.move hold.1 hnew.1 (fun hc => absurd hc hnew.2)
    ((pending_eq_zero hnew.2).trans (pending_eq_zero hold.2).symm)

theorem outside_shmget : Outside .shmget := ⟨by decide,id⟩

theorem outside_shmat : Outside .shmat := ⟨by decide,id⟩

theorem outside_failed : Outside .failed := ⟨by decide,id⟩

theorem outside_test : Outside .test := ⟨by decide,id⟩

theorem Inv.shmget (h : Inv s) (hp : s.pc p = .shmget) (hs : go args s p = some t) : Inv t := by
  have hold : Outside (s.pc p) := hp ▸ outside_shmget
  simp only [SemOpen.go,hp] at hs
  split at hs
  · cases hs
    exact h.early hold outside_failed
  split at hs
  · cases hs
    split
    · exact h.early hold outside_failed
    · exact h.early hold outside_shmat
  · split at hs <;> cases hs
    · exact h.early hold outside_shmat
    · exact h.early hold outside_failed

theorem Inv.test (h : Inv s) (hp : s.pc p = .test) (hcalm : Calm args s (.go p))
    (hs : go args s p = some t) : Inv t := by
  obtain ⟨hset,hunset⟩ := hcalm hp
  simp only [SemOpen.go,hp] at hs
  cases hs
  cases hm : s.magic with
  | true =>
    rw [if_neg (by rw [hset hm]; decide)]
    exact h.move (hp ▸ outside_test.1) (by decide) (fun _ => hm) (by rw [hp]; rfl)
  | false =>
    have hnone := hunset hm
    rw [if_pos (.inr rfl)]
    refine h.alone (fun q _ => hnone q) hm (fun _ => hm) (fun h => h.elim) rfl (fun _ _ => ?_)
      fun hor => ?_
    · exact h.fresh hm fun q hq => hnone q (.inr hq)
    · rcases hor with hor | hor
      · rw [hm] at hor
        cases hor
      · cases hor

omit [DecidableEq ι] in
theorem Inv.others (h : Inv s) (hp : Storing (s.pc p)) (q : ι) (hqp : q ≠ p) : ¬ Storing (s.pc q) :=
  fun hq => hqp (h.unique q p hq hp)

theorem Inv.go (h : Inv s) (hcalm : Calm args s (.go p)) (hs : go args s p = some t) : Inv t := by
  cases hp : s.pc p with
  | shmget => exact h.shmget hp hs
  | test => exact h.test hp hcalm hs
  | opened | failed =>
    simp only [SemOpen.go,hp] at hs
    cases hs
  | shmat =>
    simp only [SemOpen.go,hp] at hs
    cases hs
    exact h.early (hp ▸ outside_shmat) outside_test
  | setValue =>
    simp only [SemOpen.go,hp] at hs
    cases hs
    have hstoring : Storing (s.pc p) := .inl hp
    have hm := h.closed p hstoring
    refine h.alone (h.others hstoring) hm (fun _ => hm) (fun h => h.elim) rfl
      (fun _ hc => absurd rfl hc) fun _ => ⟨p,?_⟩
    rw [h.fresh hm fun q hq => ?_,List.nil_append]
    have := h.unique q p (.inr hq) hstoring
    rw [this,hp] at hq
    cases hq
  | setMagic =>
    simp only [SemOpen.go,hp] at hs
    cases hs
    have hstoring : Storing (s.pc p) := .inr hp
    have hm := h.closed p hstoring
    refine h.alone (h.others hstoring) hm (fun hc => absurd hc (by decide)) (fun _ => rfl) rfl
      (fun hb => by cases hb) fun _ => ?_
    have hbal : s.balance = s.value := by
      simp only [State.balance,h.unused hm,h.idle hm,sum_const_zero,Nat.cast_zero,
        Int.sub_zero,Int.add_zero]
    exact hbal ▸ h.stored (.inr ⟨p,hp⟩)
  | load =>
    simp only [SemOpen.go,hp] at hs
    cases hs
    have huse : Using (s.pc p) := hp ▸ trivial
    split
    · exact h.work huse trivial (by rw [hp])
    · exact h.work huse trivial (by rw [hp]; rfl)
  | cas v =>
    simp only [SemOpen.go,hp] at hs
    have huse : Using (s.pc p) := hp ▸ trivial
    split at hs <;> cases hs
    · exact h.work huse trivial (by rw [hp]; simp only [pending,State.goto]; omega)
    · exact h.work huse trivial (by rw [hp]; rfl)
  | add =>
    simp only [SemOpen.go,hp] at hs
    have huse : Using (s.pc p) := hp ▸ trivial
    split at hs
    · cases hs
      exact h.work huse trivial (by rw [hp]; simp only [pending,State.goto]; omega)
    split at hs <;> cases hs
    · exact h.work huse trivial (by rw [hp]; simp only [pending,State.goto]; omega)
    · exact h.work huse trivial (by rw [hp]; simp only [pending,State.goto]; omega)
  | sub | wake =>
    simp only [SemOpen.go,hp] at hs
    cases hs
    exact h.work (hp ▸ trivial) trivial (by rw [hp]; simp only [pending,State.goto]; omega)

theorem Inv.step {u : Unit} (h : Inv s) (hcalm : Calm args s a)
    (hs : step args s a = some (t,u)) : Inv t := by
  cases a with
  | go p =>
    obtain ⟨t',ht,heq⟩ := Option.map_eq_some_iff.mp hs
    cases heq
    exact h.go hcalm ht
  | fail p =>
    obtain ⟨hp,hs⟩ := Option.ite_none_right_eq_some.mp hs
    cases hs
    refine h.early ?_ outside_failed
    rcases hp with hp | hp
    · exact hp ▸ outside_shmget
    · exact hp ▸ outside_shmat
  | semPost p | semWait p =>
    obtain ⟨hp,hs⟩ := Option.ite_none_right_eq_some.mp hs
    cases hs
    exact h.work (hp ▸ trivial) trivial (by rw [hp]; rfl)

omit [DecidableEq ι] in
theorem Inv.start : Inv (start : State ι) := by
  refine ⟨fun p q hp => ?_,fun p hp => ?_,fun p hp => hp.elim,fun _ => ⟨rfl,rfl⟩,fun _ _ => rfl,
    fun hor => ?_⟩
  · exact absurd hp outside_shmget.1
  · exact absurd hp outside_shmget.1
  · rcases hor with hor | ⟨p,hor⟩ <;> cases hor

omit [DecidableEq ι] in
theorem Inv.once (h : Inv s) : Once s := by
  by_cases hor : s.magic = true ∨ ∃ p, s.pc p = .setMagic
  · obtain ⟨q,hq⟩ := h.stored hor
    refine ⟨by rw [hq,List.length_singleton],fun _ _ => by rw [hq,List.length_singleton],
      fun hquiet r v hmem => ?_⟩
    rw [hq,List.mem_singleton] at hmem
    cases hmem
    have hpend : ∑ p, pending (s.pc p) = 0 := by
      refine sum_eq_zero fun p _ => ?_
      rcases hquiet p with hp | hp | hp <;> rw [hp] <;> rfl
    rw [State.balance,hpend]
    omega
  · rw [not_or,Bool.not_eq_true,not_exists] at hor
    have hnil := h.fresh hor.1 hor.2
    refine ⟨by rw [hnil]; exact Nat.zero_le 1,fun p hp => ?_,fun _ q v hmem => ?_⟩
    · rw [h.users p hp] at hor
      cases hor.1
    · rw [hnil] at hmem
      cases hmem

theorem sem_open_initialises_once {ops : List (Op ι)} {out : List Unit}
    (h : run (step args) start ops = some (s,out))
    (hcalm : Always (step args) (Calm args) start ops) : Once s :=
  (run_keeps (I := Inv) (fun _ _ _ _ hI hc hs => hI.step hc hs) Inv.start hcalm h).once

def openers : Fin 2 → Args := fun p => ⟨true,p = 0,1⟩

def raceFree : List (Op (Fin 2)) :=
  [.go 0,.go 1,.go 0,.go 1,.go 0,.go 0,.go 0,.go 1,.semWait 1,.go 1,.go 1]

theorem sem_open_initialises_once_two :
    ∃ s out, run (step openers) start raceFree = some (s,out) ∧ s.waits = 1 ∧ Once s := by
  refine run_shows (·.waits = 1) (by decide +kernel) fun s out hr hw => ?_
  exact ⟨hw,sem_open_initialises_once hr (by decide +kernel)⟩

def racing : List (Op (Fin 2)) :=
  [.go 0,.go 1,.go 0,.go 1,.go 0,.go 1,.go 0,.go 0,.semWait 0,.go 0,.go 0,.go 1,.go 1]

theorem sem_open_initialises_twice :
    ∃ s out, run (step openers) start racing = some (s,out) ∧ Quiescent s ∧
      s.inits = [(0,1),(1,1)] ∧ s.waits = 1 ∧ s.value = 1 := by
  refine run_reaches (P := fun s : State (Fin 2) => Quiescent s ∧
    s.inits = [(0,1),(1,1)] ∧ s.waits = 1 ∧ s.value = 1) ?_
  decide +kernel

end TinyOs.SemOpen
