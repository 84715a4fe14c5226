import Mathlib.Data.Fintype.Basic
import TinyOs.Library.Machine

namespace TinyOs.Fpu

open Option Machine

open Function (forall_update_iff update update_comm update_eq_self update_idem update_of_ne update_self)

structure Fx (E R : Type) where
  env : E
  regs : R
  deriving DecidableEq

structure Cpu (P E R : Type) where
  proc : Option P
  owner : Option P
  ts : Bool
  hw : Fx E R

structure Pcb (E R : Type) where
  used : Bool
  state : Fx E R

structure System (C P E R : Type) where
  cpus : C → Cpu P E R
  procs : P → Pcb E R
  alive : P → Bool

section Model

variable {C P E R : Type} [DecidableEq C] [DecidableEq P]

namespace System

def setCpu (s : System C P E R) (c : C) (k : Cpu P E R) : System C P E R :=
  { s with cpus := update s.cpus c k }

def setProc (s : System C P E R) (p : P) (b : Pcb E R) : System C P E R :=
  { s with procs := update s.procs p b }

def setTs (s : System C P E R) (c : C) (ts : Bool) : System C P E R :=
  s.setCpu c { s.cpus c with ts := ts }

def fpuClts (s : System C P E R) (c : C) : System C P E R := s.setTs c false

def fxsave (s : System C P E R) (c : C) (p : P) : System C P E R :=
  s.setProc p ⟨true,(s.cpus c).hw⟩

def fpuSwitchAway (s : System C P E R) (c : C) : System C P E R :=
  let s :=
    match (s.cpus c).proc with
    | none => s
    | some p =>
      if (s.cpus c).owner = some p then
        let s := (s.fpuClts c).fxsave c p
        s.setCpu c { s.cpus c with owner := none }
      else s
  s.setTs c true

def fpuDrop (s : System C P E R) (p : P) : System C P E R :=
  { s with cpus := fun c =>
      if (s.cpus c).owner = some p then { s.cpus c with owner := none } else s.cpus c }

def fpuClear (s : System C P E R) (p : P) : System C P E R :=
  (s.setProc p { s.procs p with used := false }).fpuDrop p

def fpuFork (s : System C P E R) (c : C) (child parent : P) : System C P E R :=
  if !(s.procs parent).used && (s.cpus c).owner != some parent then
    s.setProc child { s.procs child with used := false }
  else
    let s := if (s.cpus c).owner = some parent then (s.fpuClts c).fxsave c parent else s
    if (s.procs parent).used then s.setProc child ⟨true,(s.procs parent).state⟩
    else s.setProc child { s.procs child with used := false }

def fpuHwInit (init : Fx E R) (s : System C P E R) (c : C) : System C P E R :=
  s.setCpu c { s.cpus c with hw := { (s.cpus c).hw with env := init.env } }

def fpuNm (init : Fx E R) (s : System C P E R) (c : C) : System C P E R :=
  let s := s.fpuClts c
  match (s.cpus c).proc with
  | none => s
  | some p =>
    if (s.cpus c).owner = some p then s
    else
      let s :=
        match (s.cpus c).owner with
        | none => s
        | some q => s.fxsave c q
      let s :=
        if (s.procs p).used then s.setCpu c { s.cpus c with hw := (s.procs p).state }
        else
          let s := s.fpuHwInit init c
          s.setProc p { s.procs p with used := true }
      s.setCpu c { s.cpus c with owner := some p }

end System

inductive Op (C P E R : Type) where
  | fp (c : C) (f : Fx E R → Fx E R)
  | leave (c : C)
  | dispatch (c : C) (p : P)
  | fork (c : C) (child : P)
  | execve (c : C)
  | exit (c : C)

namespace System

variable [Fintype C]

def retire (s : System C P E R) (c : C) : System C P E R :=
  let s := s.fpuSwitchAway c
  s.setCpu c { s.cpus c with proc := none }

def step (init blank : Fx E R) (s : System C P E R) :
    Op C P E R → Option (System C P E R × Option (Fx E R))
  | .fp c f =>
    match (s.cpus c).proc with
    | none => none
    | some _ =>
      let s := if (s.cpus c).ts then s.fpuNm init c else s
      some (s.setCpu c { s.cpus c with hw := f (s.cpus c).hw },some (s.cpus c).hw)
  | .leave c => if (s.cpus c).proc.isSome then some (s.retire c,none) else none
  | .dispatch c p =>
    if (s.cpus c).proc.isNone ∧ s.alive p ∧ ∀ d, (s.cpus d).proc ≠ some p then
      some ((s.setCpu c { s.cpus c with proc := some p }).fpuSwitchAway c,none)
    else none
  | .fork c child =>
    match (s.cpus c).proc with
    | none => none
    | some p =>
      if s.alive child then none
      else
        let s := (s.setProc child ⟨false,blank⟩).fpuFork c child p
        some ({ s with alive := update s.alive child true },none)
  | .execve c =>
    match (s.cpus c).proc with
    | none => none
    | some p => some (s.fpuClear p,none)
  | .exit c =>
    match (s.cpus c).proc with
    | none => none
    | some p =>
      let s := (s.fpuDrop p).retire c
      some ({ s with alive := update s.alive p false },none)

end System

structure Private (C P E R : Type) where
  cpu : C → Option P
  alive : P → Bool
  fpu : P → Fx E R

def Private.step [Fintype C] (init : Fx E R) (o : Private C P E R) :
    Op C P E R → Option (Private C P E R × Option (Fx E R))
  | .fp c f =>
    match o.cpu c with
    | none => none
    | some p => some ({ o with fpu := update o.fpu p (f (o.fpu p)) },some (o.fpu p))
  | .leave c =>
    if (o.cpu c).isSome then some ({ o with cpu := update o.cpu c none },none) else none
  | .dispatch c p =>
    if (o.cpu c).isNone ∧ o.alive p ∧ ∀ d, o.cpu d ≠ some p then
      some ({ o with cpu := update o.cpu c (some p) },none)
    else none
  | .fork c child =>
    match o.cpu c with
    | none => none
    | some p =>
      if o.alive child then none
      else
        some ({ o with
          alive := update o.alive child true
          fpu := update o.fpu child (o.fpu p) },none)
  | .execve c =>
    match o.cpu c with
    | none => none
    | some p => some ({ o with fpu := update o.fpu p init },none)
  | .exit c =>
    match o.cpu c with
    | none => none
    | some p =>
      some ({ o with
        cpu := update o.cpu c none
        alive := update o.alive p false },none)

def boot (hw : C → Fx E R) (blank : Fx E R) (alive : P → Bool) : System C P E R :=
  ⟨fun c => ⟨none,none,false,hw c⟩,fun _ => ⟨false,blank⟩,alive⟩

def Private.boot (init : Fx E R) (alive : P → Bool) : Private C P E R :=
  ⟨fun _ => none,alive,fun _ => init⟩

variable {s : System C P E R} {o : Private C P E R} {init blank : Fx E R} {c : C} {p : P}

structure Refines (init : Fx E R) (s : System C P E R) (o : Private C P E R) : Prop where
  proc : ∀ c, o.cpu c = (s.cpus c).proc
  alive : o.alive = s.alive
  idle : ∀ c, (s.cpus c).proc = none → (s.cpus c).owner = none
  live : ∀ c p, (s.cpus c).proc = some p → s.alive p = true ∧
    ((s.cpus c).owner = none ∧ (s.cpus c).ts = true ∨
      (s.cpus c).owner = some p ∧ (s.procs p).used = true ∧ (s.cpus c).hw = o.fpu p)
  single : ∀ c d p, (s.cpus c).proc = some p → (s.cpus d).proc = some p → c = d
  saved : ∀ p, s.alive p = true → (∀ c, (s.cpus c).owner ≠ some p) →
    o.fpu p = if (s.procs p).used then (s.procs p).state else init

namespace System

theorem fpuSwitchAway_unowned (h : ∀ p, (s.cpus c).proc = some p → (s.cpus c).owner ≠ some p) :
    s.fpuSwitchAway c = s.setTs c true := by
  unfold fpuSwitchAway
  cases hp : (s.cpus c).proc with
  | none => rfl
  | some p => simp only [if_neg (h p hp)]

theorem fpuSwitchAway_owned (hp : (s.cpus c).proc = some p) (ho : (s.cpus c).owner = some p) :
    s.fpuSwitchAway c = { s with
        cpus := update s.cpus c { s.cpus c with owner := none, ts := true }
        procs := update s.procs p ⟨true,(s.cpus c).hw⟩ } := by
  simp [fpuSwitchAway,hp,ho,fpuClts,setTs,setCpu,fxsave,setProc]

end System

def Clean (init : Fx E R) (s : System C P E R) : Op C P E R → Prop
  | .fp c _ => ∀ p ∈ (s.cpus c).proc, (s.cpus c).ts = true → (s.cpus c).owner ≠ some p →
      (s.procs p).used = false → (s.cpus c).hw.regs = init.regs
  | .execve c => (s.cpus c).ts = true
  | _ => True

instance [DecidableEq R] (s : System C P E R) : (op : Op C P E R) → Decidable (Clean init s op)
  | .fp _ _ => inferInstanceAs (Decidable (∀ p ∈ _, _))
  | .execve _ => inferInstanceAs (Decidable (_ = _))
  | .leave _ | .dispatch _ _ | .fork _ _ | .exit _ => .isTrue trivial

namespace Refines

omit [DecidableEq C] [DecidableEq P] in
theorem runs (h : Refines init s o) (ho : (s.cpus c).owner = some p) :
    (s.cpus c).proc = some p := by
  cases hp : (s.cpus c).proc with
  | none =>
    rw [h.idle c hp] at ho
    cases ho
  | some q =>
    rcases (h.live c q hp).2 with hq | hq
    · rw [hq.1] at ho
      cases ho
    · rw [← hq.1,ho]

omit [DecidableEq C] [DecidableEq P] in
theorem owner (h : Refines init s o) (ho : (s.cpus c).owner = some p) :
    (s.procs p).used = true ∧ (s.cpus c).hw = o.fpu p := by
  rcases (h.live c p (h.runs ho)).2 with hq | hq
  · rw [hq.1] at ho
    cases ho
  · exact hq.2

omit [DecidableEq C] [DecidableEq P] in
theorem saved_of_unowned (h : Refines init s o) (hp : (s.cpus c).proc = some p)
    (ho : (s.cpus c).owner = none) :
    o.fpu p = if (s.procs p).used then (s.procs p).state else init := by
  refine h.saved p (h.live c p hp).1 fun d hd => ?_
  have hcd := h.single c d p hp (h.runs hd)
  subst hcd
  rw [ho] at hd
  cases hd

theorem put (h : Refines init s o)
    (hat : (s.cpus c).proc = some p ∨ (s.cpus c).proc = none ∧ ∀ d, (s.cpus d).proc ≠ some p)
    (k : Cpu P E R) (b : Pcb E R) (a : Bool) (f : Fx E R) {s' : System C P E R}
    {o' : Private C P E R}
    (hk : k.proc = none ∧ k.owner = none ∨ k.proc = some p ∧ a = true ∧
      (k.owner = none ∧ k.ts = true ∨ k.owner = some p ∧ b.used = true ∧ k.hw = f))
    (hf : a = true → k.owner = none → f = if b.used then b.state else init)
    (hs : s' = ⟨update s.cpus c k,update s.procs p b,update s.alive p a⟩)
    (ho : o' = ⟨update o.cpu c k.proc,update o.alive p a,update o.fpu p f⟩) :
    Refines init s' o' := by
  subst hs ho
  have hother : ∀ d q, d ≠ c → (s.cpus d).proc = some q → q ≠ p := by
    rintro d q hd hdq rfl
    exact hat.elim (fun hp => hd (h.single d c q hdq hp)) fun hfree => hfree.2 d hdq
  have hmine : ∀ q, k.proc = some q → q = p ∧ a = true ∧
      (k.owner = none ∧ k.ts = true ∨ k.owner = some p ∧ b.used = true ∧ k.hw = f) := by
    rcases hk with hk | hk
    · simp [hk.1]
    · simpa [hk.1] using hk.2
  refine ⟨?_,by rw [h.alive],?_,?_,?_,?_⟩ <;> dsimp only
  · intro d
    by_cases hd : d = c <;> simp [hd,h.proc]
  · refine (forall_update_iff s.cpus fun _ k => k.proc = none → k.owner = none).mpr
      ⟨fun hnone => ?_,fun d _ => h.idle d⟩
    rcases hk with hk | hk
    · exact hk.2
    · cases hk.1.symm.trans hnone
  · intro d q hdq
    by_cases hd : d = c
    · subst hd
      rw [update_self] at hdq ⊢
      obtain ⟨rfl,hk⟩ := hmine q hdq
      simpa only [update_self] using hk
    · rw [update_of_ne hd] at hdq ⊢
      simpa only [update_of_ne (hother d q hd hdq)] using h.live d q hdq
  · intro d e q hdq heq
    by_cases hd : d = c <;> by_cases he : e = c
    · rw [hd,he]
    · rw [hd,update_self] at hdq
      rw [update_of_ne he] at heq
      exact absurd (hmine q hdq).1 (hother e q he heq)
    · rw [he,update_self] at heq
      rw [update_of_ne hd] at hdq
      exact absurd (hmine q heq).1 (hother d q hd hdq)
    · rw [update_of_ne hd] at hdq
      rw [update_of_ne he] at heq
      exact h.single d e q hdq heq
  · intro q ha hq
    by_cases hqp : q = p
    · subst hqp
      have hno := hq c
      simp only [update_self] at hno ha ⊢
      refine hf ha ?_
      rcases hk with hk | ⟨-,-,hk | hk⟩
      · exact hk.2
      · exact hk.1
      · exact absurd hk.1 hno
    simp only [update_of_ne hqp] at ha ⊢
    refine h.saved q ha fun d hd => ?_
    by_cases hdc : d = c
    · have hrun := h.runs (hdc ▸ hd)
      rcases hat with hp | hp
      · exact hqp (some.inj (hrun.symm.trans hp))
      · cases hp.1.symm.trans hrun
    · exact hq d (by rwa [update_of_ne hdc])

theorem fpuNm_loads (h : Refines init s o) (hp : (s.cpus c).proc = some p)
    (hclean : (s.cpus c).owner ≠ some p → (s.procs p).used = false →
      (s.cpus c).hw.regs = init.regs) :
    ∃ k b, s.fpuNm init c = ⟨update s.cpus c k,update s.procs p b,s.alive⟩ ∧ k.proc = some p ∧
      k.owner = some p ∧ b.used = true ∧ k.hw = o.fpu p := by
  obtain ⟨-,⟨ho,-⟩ | ⟨ho,hu,hhw⟩⟩ := h.live c p hp
  · have hs := h.saved_of_unowned hp ho
    cases hu : (s.procs p).used with
    | true =>
      rw [hu,if_pos rfl] at hs
      refine ⟨{ s.cpus c with owner := some p, ts := false, hw := (s.procs p).state },s.procs p,
        ?_,hp,rfl,hu,hs.symm⟩
      simp [System.fpuNm,hp,ho,hu,System.fpuClts,System.setTs,System.setCpu]
    | false =>
      have hr := hclean (by simp [ho]) hu
      rw [hu] at hs
      refine ⟨{ s.cpus c with owner := some p, ts := false, hw := ⟨init.env,(s.cpus c).hw.regs⟩ },
        ⟨true,(s.procs p).state⟩,?_,hp,rfl,rfl,by rw [hs,hr]; rfl⟩
      simp [System.fpuNm,hp,ho,hu,System.fpuClts,System.setTs,System.setCpu,System.setProc,
        System.fpuHwInit]
  · refine ⟨{ s.cpus c with ts := false },s.procs p,?_,hp,ho,hu,hhw⟩
    simp [System.fpuNm,hp,ho,System.fpuClts,System.setTs,System.setCpu]

theorem fpuNm (h : Refines init s o) (hp : (s.cpus c).proc = some p)
    (hclean : (s.cpus c).owner ≠ some p → (s.procs p).used = false →
      (s.cpus c).hw.regs = init.regs) :
    Refines init (s.fpuNm init c) o ∧ ((s.fpuNm init c).cpus c).owner = some p := by
  obtain ⟨k,b,heq,hk,hko,hb,hhw⟩ := h.fpuNm_loads hp hclean
  rw [heq]
  refine ⟨h.put (.inl hp) k b (s.alive p) (o.fpu p)
    (.inr ⟨hk,(h.live c p hp).1,.inr ⟨hko,hb,hhw⟩⟩) (by simp [hko]) (by simp) ?_,by simp [hko]⟩
  simp [hk,← hp,← h.proc,← h.alive]

theorem fp (h : Refines init s o) (ho : (s.cpus c).owner = some p) (f : Fx E R → Fx E R) :
    Refines init (s.setCpu c { s.cpus c with hw := f (s.cpus c).hw })
      { o with fpu := update o.fpu p (f (o.fpu p)) } := by
  obtain ⟨hu,hhw⟩ := h.owner ho
  have hp := h.runs ho
  refine h.put (.inl hp) { s.cpus c with hw := f (s.cpus c).hw } (s.procs p) (s.alive p)
    (f (s.cpus c).hw) (.inr ⟨hp,(h.live c p hp).1,.inr ⟨ho,hu,rfl⟩⟩) (by simp [ho]) ?_ ?_
  · simp [System.setCpu]
  · simp [← h.proc,← h.alive,hhw]

theorem retire (h : Refines init s o) (hp : (s.cpus c).proc = some p) :
    Refines init (s.retire c) { o with cpu := update o.cpu c none } := by
  obtain ⟨-,⟨ho,-⟩ | ⟨ho,-,hhw⟩⟩ := h.live c p hp
  · rw [System.retire,System.fpuSwitchAway_unowned (by simp [ho])]
    refine h.put (.inl hp) { s.cpus c with proc := none, ts := true } (s.procs p) (s.alive p)
      (o.fpu p) (.inl ⟨rfl,ho⟩) (fun _ _ => h.saved_of_unowned hp ho) ?_ ?_
    · simp [System.setTs,System.setCpu]
    · simp [← h.alive]
  · rw [System.retire,System.fpuSwitchAway_owned hp ho]
    refine h.put (.inl hp) { s.cpus c with proc := none, owner := none, ts := true }
      ⟨true,(s.cpus c).hw⟩ (s.alive p) (o.fpu p) (.inl ⟨rfl,rfl⟩) (fun _ _ => hhw.symm) ?_ ?_
    · simp [System.setCpu]
    · simp [← h.alive]

theorem fpuDrop_cpus (h : Refines init s o) (hp : (s.cpus c).proc = some p) :
    (s.fpuDrop p).cpus = update s.cpus c { s.cpus c with owner := none } := by
  funext d
  by_cases hd : d = c
  · subst hd
    rw [update_self]
    obtain ⟨-,⟨ho,-⟩ | ⟨ho,-⟩⟩ := h.live d p hp
    · rw [← ho]
      exact if_neg (by simp [ho])
    · exact if_pos ho
  · rw [update_of_ne hd]
    exact if_neg fun hdo => hd (h.single d c p (h.runs hdo) hp)

theorem execve (h : Refines init s o) (hp : (s.cpus c).proc = some p) (hts : (s.cpus c).ts = true) :
    Refines init (s.fpuClear p) { o with fpu := update o.fpu p init } := by
  refine h.put (.inl hp) { s.cpus c with owner := none } { s.procs p with used := false }
    (s.alive p) init (.inr ⟨hp,(h.live c p hp).1,.inl ⟨rfl,hts⟩⟩) (fun _ _ => rfl) ?_ ?_
  · rw [← h.fpuDrop_cpus hp,update_eq_self]
    rfl
  · simp [← h.proc,← h.alive]

theorem exit (h : Refines init s o) (hp : (s.cpus c).proc = some p) : Refines init
      { (s.fpuDrop p).retire c with
        alive := update ((s.fpuDrop p).retire c).alive p false }
      { o with cpu := update o.cpu c none, alive := update o.alive p false } := by
  have hdrop := h.fpuDrop_cpus hp
  rw [System.retire,System.fpuSwitchAway_unowned (by simp [hdrop])]
  refine h.put (.inl hp) { s.cpus c with proc := none, owner := none, ts := true } (s.procs p)
    false (o.fpu p) (.inl ⟨rfl,rfl⟩) nofun ?_ ?_
  · simp only [System.setTs,System.setCpu,hdrop,update_self,update_idem,update_eq_self]
    rfl
  · simp

theorem dispatch (h : Refines init s o) (hc : (s.cpus c).proc = none) (ha : s.alive p = true)
    (hfree : ∀ d, (s.cpus d).proc ≠ some p) :
    Refines init ((s.setCpu c { s.cpus c with proc := some p }).fpuSwitchAway c)
      { o with cpu := update o.cpu c (some p) } := by
  have ho := h.idle c hc
  rw [System.fpuSwitchAway_unowned (by simp [System.setCpu,ho])]
  refine h.put (.inr ⟨hc,hfree⟩) { s.cpus c with proc := some p, ts := true } (s.procs p)
    (s.alive p) (o.fpu p) (.inr ⟨rfl,ha,.inl ⟨ho,rfl⟩⟩)
    (fun _ _ => h.saved p ha fun d hd => hfree d (h.runs hd)) ?_ ?_
  · simp [System.setTs,System.setCpu]
  · simp [← h.alive]

theorem writeback (h : Refines init s o) (ho : (s.cpus c).owner = some p) :
    Refines init ((s.fpuClts c).fxsave c p) o := by
  obtain ⟨-,hhw⟩ := h.owner ho
  have hp := h.runs ho
  refine h.put (.inl hp) { s.cpus c with ts := false } ⟨true,(s.cpus c).hw⟩ (s.alive p) (o.fpu p)
    (.inr ⟨hp,(h.live c p hp).1,.inr ⟨ho,rfl,hhw⟩⟩) (by simp [ho]) ?_ ?_
  · simp [System.fpuClts,System.setTs,System.setCpu,System.fxsave,System.setProc]
  · simp [← h.proc,← h.alive]

omit [DecidableEq C] in
theorem spawn (h : Refines init s o) {child : P} (hd : s.alive child = false) (b : Pcb E R) :
    Refines init { s.setProc child b with alive := update s.alive child true } { o with
        alive := update o.alive child true
        fpu := update o.fpu child (if b.used then b.state else init) } := by
  refine ⟨h.proc,by rw [h.alive],h.idle,?_,h.single,?_⟩
  · intro c q hq
    have hlive := h.live c q hq
    have hne : q ≠ child := by
      rintro rfl
      rw [hlive.1] at hd
      cases hd
    simpa [System.setProc,hne] using hlive
  · intro q ha hno
    by_cases hq : q = child
    · simp [hq,System.setProc]
    · simp only [ne_eq,hq,not_false_eq_true,update_of_ne,System.setProc] at ha ⊢
      exact h.saved q ha hno

theorem fork (h : Refines init s o) (blank : Fx E R) (hp : (s.cpus c).proc = some p) {child : P}
    (hd : s.alive child = false) :
    ∃ t b, Refines init t o ∧ t.alive = s.alive ∧
      (s.setProc child ⟨false,blank⟩).fpuFork c child p = t.setProc child b ∧
      o.fpu p = if b.used then b.state else init := by
  obtain ⟨hlive,⟨ho,-⟩ | ⟨ho,-,hhw⟩⟩ := h.live c p hp
  all_goals
    have hne : p ≠ child := by
      rintro rfl
      rw [hlive] at hd
      cases hd
  · refine ⟨s,if (s.procs p).used then ⟨true,(s.procs p).state⟩ else ⟨false,blank⟩,h,rfl,?_,?_⟩
    · cases hu : (s.procs p).used <;>
        simp [System.fpuFork,System.setProc,hne,ho,hu]
    · rw [h.saved_of_unowned hp ho]
      cases hu : (s.procs p).used <;> simp
  · refine ⟨(s.fpuClts c).fxsave c p,⟨true,(s.cpus c).hw⟩,h.writeback ho,rfl,?_,hhw.symm⟩
    simp [System.fpuFork,System.setProc,System.fpuClts,System.setTs,System.setCpu,System.fxsave,hne,
      ho,update_comm hne]

end Refines

theorem step_refines [Fintype C] (s : System C P E R) (o : Private C P E R) (op : Op C P E R)
    (s' : System C P E R) (out : Option (Fx E R)) (h : Refines init s o) (hclean : Clean init s op)
    (hs : s.step init blank op = some (s',out)) :
    ∃ o', o.step init op = some (o',out) ∧ Refines init s' o' := by
  cases op with
  | fp c f =>
    rcases hp : (s.cpus c).proc with _ | p
    · simp [System.step,hp] at hs
    have hready : ∃ t, (if (s.cpus c).ts then s.fpuNm init c else s) = t ∧ Refines init t o ∧
        (t.cpus c).owner = some p := by
      refine ⟨_,rfl,?_⟩
      cases hts : (s.cpus c).ts with
      | true => exact h.fpuNm hp (hclean p hp hts)
      | false =>
        refine ⟨h,((h.live c p hp).2.resolve_left ?_).1⟩
        simp [hts]
    obtain ⟨t,ht,htr,hto⟩ := hready
    simp only [System.step,hp,ht] at hs
    cases hs
    refine ⟨_,?_,htr.fp hto f⟩
    simp only [Private.step,h.proc,hp,(htr.owner hto).2]
  | leave c =>
    obtain ⟨hsome,hs⟩ := ite_none_right_eq_some.mp hs
    obtain ⟨p,hp⟩ := isSome_iff_exists.mp hsome
    cases hs
    exact ⟨_,by simp [Private.step,h.proc,hp],h.retire hp⟩
  | dispatch c p =>
    obtain ⟨hc,hs⟩ := ite_none_right_eq_some.mp hs
    cases hs
    refine ⟨_,?_,h.dispatch (isNone_iff_eq_none.mp hc.1) hc.2.1 hc.2.2⟩
    simp only [Private.step,h.proc,h.alive]
    rw [if_pos hc]
  | fork c child =>
    rcases hp : (s.cpus c).proc with _ | p
    · simp [System.step,hp] at hs
    rcases hd : s.alive child with _ | _
    · obtain ⟨t,b,ht,hta,hfork,hb⟩ := h.fork blank hp hd
      simp only [System.step,hp,hd,hfork] at hs
      cases hs
      refine ⟨_,?_,ht.spawn (hta ▸ hd) b⟩
      simp [Private.step,h.proc,h.alive,hp,hd,hb]
    · simp [System.step,hp,hd] at hs
  | execve c =>
    rcases hp : (s.cpus c).proc with _ | p
    · simp [System.step,hp] at hs
    simp only [System.step,hp] at hs
    cases hs
    exact ⟨_,by simp only [Private.step,h.proc,hp],h.execve hp hclean⟩
  | exit c =>
    rcases hp : (s.cpus c).proc with _ | p
    · simp [System.step,hp] at hs
    simp only [System.step,hp] at hs
    cases hs
    exact ⟨_,by simp only [Private.step,h.proc,hp],h.exit hp⟩

omit [DecidableEq C] [DecidableEq P] in
theorem boot_refines (init blank : Fx E R) (hw : C → Fx E R) (alive : P → Bool) :
    Refines init (boot hw blank alive) (Private.boot init alive) :=
  ⟨fun _ => rfl,rfl,fun _ _ => rfl,fun _ _ => nofun,fun _ _ _ => nofun,fun _ _ _ => rfl⟩

theorem lazy_fpu_private [Fintype C] (init blank : Fx E R) (hw : C → Fx E R) (alive : P → Bool)
    (ops : List (Op C P E R)) (s' : System C P E R) (seen : List (Option (Fx E R)))
    (hclean : Always (System.step init blank) (Clean init) (boot hw blank alive) ops)
    (hrun : run (System.step init blank) (boot hw blank alive) ops = some (s',seen)) :
    ∃ o', run (Private.step init) (Private.boot init alive) ops = some (o',seen) := by
  obtain ⟨o',ho',-⟩ :=
    run_refines step_refines (boot_refines init blank hw alive) hclean hrun
  exact ⟨o',ho'⟩

end Model

abbrev Ops := List (Op (Fin 2) (Fin 3) Nat Nat)

def system (ops : Ops) : Option (List (Option (Fx Nat Nat))) :=
  (run (System.step ⟨1,0⟩ ⟨0,0⟩) (boot (fun _ => ⟨1,0⟩) ⟨0,0⟩ (· < 2)) ops).map Prod.snd

def privately (ops : Ops) : Option (List (Option (Fx Nat Nat))) :=
  (run (Private.step ⟨1,0⟩) (Private.boot ⟨1,0⟩ (· < 2)) ops).map Prod.snd

def migrate : Ops :=
  [.dispatch 0 0,.execve 0,.fp 0 fun _ => ⟨1,7⟩,.fork 0 2,.leave 0,.dispatch 1 0,.dispatch 0 2,
    .fp 1 fun x => ⟨x.env,x.regs + 1⟩,.fp 0 id,.fp 1 id,.exit 1]

theorem lazy_fpu_private_migrate :
    ∃ o', run (Private.step ⟨1,0⟩) (Private.boot ⟨1,0⟩ (· < 2)) migrate = some (o',
      [none,none,some ⟨1,0⟩,none,none,none,none,some ⟨1,7⟩,some ⟨1,7⟩,some ⟨1,8⟩,
        none]) := by
  have hrun : system migrate = some [none,none,some ⟨1,0⟩,none,none,none,none,some ⟨1,7⟩,some ⟨1,7⟩,
      some ⟨1,8⟩,none] := by decide +kernel
  obtain ⟨⟨s',seen⟩,hs,rfl⟩ := map_eq_some_iff.mp hrun
  exact lazy_fpu_private ⟨1,0⟩ ⟨0,0⟩ (fun _ => ⟨1,0⟩) (· < 2) migrate s' _ (by decide +kernel) hs

theorem lazy_fpu_leaks : system [.dispatch 0 0,.fp 0 fun _ => ⟨1,7⟩,.execve 0,.fp 0 id] =
        some [none,some ⟨1,0⟩,none,some ⟨1,7⟩] ∧
      privately [.dispatch 0 0,.fp 0 fun _ => ⟨1,7⟩,.execve 0,.fp 0 id] =
        some [none,some ⟨1,0⟩,none,some ⟨1,0⟩] ∧
      system [.dispatch 0 0,.fp 0 fun _ => ⟨1,7⟩,.leave 0,.dispatch 0 1,.fp 0 id] =
        some [none,some ⟨1,0⟩,none,none,some ⟨1,7⟩] ∧
      privately [.dispatch 0 0,.fp 0 fun _ => ⟨1,7⟩,.leave 0,.dispatch 0 1,.fp 0 id] =
        some [none,some ⟨1,0⟩,none,none,some ⟨1,0⟩] := by
  decide +kernel

end TinyOs.Fpu
