import TinyOs.Library.Machine
import TinyOs.Shell.Parse

namespace TinyOs.Shell

open List Option Machine
open Function (update update_apply update_of_ne update_self)

inductive File where
  | other (n : Nat)
  | reader (pipe : Nat)
  | writer (pipe : Nat)
  deriving DecidableEq

abbrev Ofile := Nat → Option File

def nofile : Nat := 256

def fdalloc (o : Ofile) (f : File) : Option (Ofile × Nat) :=
  ((range nofile).find? fun fd => (o fd).isNone).map fun fd => (update o fd (some f),fd)

def pipe (o : Ofile) (n : Nat) : Option (Ofile × Nat × Nat) :=
  (fdalloc o (.reader n)).bind fun (o,fd0) =>
    (fdalloc o (.writer n)).map fun (o,fd1) => (o,fd0,fd1)

inductive Call where
  | close (fd : Nat)
  | dupTo (fd want : Nat)

def Call.exec (o : Ofile) : Call → Option Ofile
  | .close fd => some (update o fd none)
  | .dupTo fd want =>
    ((o fd).bind (fdalloc o)).bind fun r => if r.2 = want then some r.1 else none

inductive Next where
  | runcmd (argv : List Str)
  | forkLeft (argv : List Str) (bar p0 p1 : Nat)
  | forkRight (argv : List Str) (bar p0 p1 : Nat)
  | wait
  | execSimple (argv : List Str)
  | exit

structure Proc where
  ofile : Ofile
  todo : List Call
  next : Next

structure State where
  procs : Nat → Proc
  count : Nat
  pipes : Nat

def bar : Str := [0x7c]

def findPipe (argv : List Str) : Option Nat := argv.findIdx? (· = bar)

def Proc.exited : Proc := ⟨fun _ => none,[],.exit⟩

def State.set (s : State) (x : Nat) (q : Proc) : State := { s with procs := update s.procs x q }

def State.fork (s : State) (child : Proc) : State :=
  { s with procs := update s.procs s.count child, count := s.count + 1 }

def State.runcmd (s : State) (x : Nat) (o : Ofile) (argv : List Str) : State :=
  match findPipe argv with
  | none => s.set x ⟨o,[],.execSimple argv⟩
  | some bar =>
    if bar = 0 ∨ bar = argv.length - 1 then s.set x .exited
    else
      match pipe o s.pipes with
      | none => s.set x .exited
      | some (o,p0,p1) => { s.set x ⟨o,[],.forkLeft argv bar p0 p1⟩ with pipes := s.pipes + 1 }

def step (s : State) (x : Nat) : Option (State × Unit) :=
  if s.count ≤ x then none
  else
    match s.procs x with
    | ⟨o,c :: todo,next⟩ =>
      some (s.set x ((c.exec o).elim .exited fun o => ⟨o,todo,next⟩),())
    | ⟨o,[],.runcmd argv⟩ => some (s.runcmd x o argv,())
    | ⟨o,[],.forkLeft argv bar p0 p1⟩ =>
      some ((s.set x ⟨o,[],.forkRight argv bar p0 p1⟩).fork
        ⟨o,[.close 1,.dupTo p1 1,.close p0,.close p1],.execSimple (argv.take bar)⟩,())
    | ⟨o,[],.forkRight argv bar p0 p1⟩ =>
      some ((s.set x ⟨o,[.close p0,.close p1],.wait⟩).fork
        ⟨o,[.close 0,.dupTo p0 0,.close p0,.close p1],.runcmd (argv.drop (bar + 1))⟩,())
    | ⟨_,[],.wait⟩ | ⟨_,[],.execSimple _⟩ | ⟨_,[],.exit⟩ => none

def start (shell : Nat → Option Nat) (argv : List Str) : State :=
  ⟨fun _ => ⟨fun fd => (shell fd).map .other,[],.runcmd argv⟩,1,0⟩

def line : List (List Str) → List Str
  | [] => []
  | [c] => c
  | c :: d :: cmds => c ++ bar :: line (d :: cmds)

def stage (k i : Nat) : Nat := if i + 1 < k then 2 * i + 1 else 2 * i

def Proc.reached : Proc → Bool
  | ⟨_,[],.execSimple _⟩ => true
  | _ => false

def entry (shell : Nat → Option Nat) : Nat → Ofile
  | 0 => fun fd => (shell fd).map .other
  | i + 1 => update (fun fd => (shell fd).map .other) 0 (some (.reader i))

def finish (todo : List Call) (o : Ofile) : Option Ofile := todo.foldlM Call.exec o

variable {shell : Nat → Option Nat} {cmds rest : List (List Str)} {c d : List Str} {o o' : Ofile}
  {n m i j k x p0 p1 : Nat} {q : Proc} {s s' : State}

theorem findPipe_line (hc : bar ∉ c) : findPipe (line (c :: d :: rest)) = some c.length := by
  rw [findPipe,line,findIdx?_append,findIdx?_eq_none_iff.mpr,findIdx?_cons]
  · simp
  · intro w hw
    simpa using fun h : w = bar => hc (h ▸ hw)

theorem findPipe_last (hc : bar ∉ c) : findPipe (line [c]) = none := by
  refine findIdx?_eq_none_iff.mpr fun w hw => ?_
  simpa using fun h : w = bar => hc (h ▸ hw)

theorem fdalloc_eq {f : File} {fd : Nat} (h : fdalloc o f = some (o',fd)) :
    o fd = none ∧ o' = update o fd (some f) := by
  obtain ⟨y,hy,heq⟩ := map_eq_some_iff.mp h
  obtain ⟨rfl,rfl⟩ := Prod.mk.inj heq
  have hfree := find?_some hy
  exact ⟨isNone_iff_eq_none.mp hfree,rfl⟩

theorem fdalloc_lowest {f : File} {fd : Nat} (hfd : fd < nofile) (hlow : ∀ y < fd, o y ≠ none)
    (hfree : o fd = none) : fdalloc o f = some (update o fd (some f),fd) := by
  refine map_eq_some_iff.mpr ⟨fd,find?_range_eq_some.mpr ⟨?_,mem_range.mpr hfd,?_⟩,rfl⟩
  · rw [hfree]
    rfl
  · intro y hy
    simpa using ne_none_iff_isSome.mp (hlow y hy)

structure Free (o : Ofile) (p0 p1 : Nat) : Prop where
  reader : o p0 = none
  writer : o p1 = none
  ne : p0 ≠ p1

theorem pipe_eq (h : pipe o n = some (o',p0,p1)) :
    Free o p0 p1 ∧ o' = update (update o p0 (some (.reader n))) p1 (some (.writer n)) := by
  obtain ⟨⟨o₁,fd0⟩,h0,h⟩ := bind_eq_some_iff.mp h
  obtain ⟨⟨o₂,fd1⟩,h1,heq⟩ := map_eq_some_iff.mp h
  cases heq
  obtain ⟨hfree,rfl⟩ := fdalloc_eq h0
  obtain ⟨hfree1,rfl⟩ := fdalloc_eq h1
  have hne : p0 ≠ p1 := by
    rintro rfl
    rw [update_self] at hfree1
    cases hfree1
  rw [update_of_ne hne.symm] at hfree1
  exact ⟨⟨hfree,hfree1,hne⟩,rfl⟩

theorem finish_end {fd e : Nat} {f : File} {a b : Option File} (h : Free o p0 p1)
    (hlow : ∀ y < fd, o y ≠ none) (hfd : o fd ≠ none) (hnofile : fd < nofile)
    (he : e = p0 ∧ a = some f ∨ e = p1 ∧ b = some f) :
    finish [.close fd,.dupTo e fd,.close p0,.close p1] (update (update o p0 a) p1 b) =
      some (update o fd (some f)) := by
  have h0 : p0 ≠ fd := fun heq => hfd (heq ▸ h.reader)
  have h1 : p1 ≠ fd := fun heq => hfd (heq ▸ h.writer)
  have hlow0 : ∀ y < fd, y ≠ p0 ∧ y ≠ p1 := fun y hy =>
    ⟨fun heq => hlow y hy (heq ▸ h.reader),fun heq => hlow y hy (heq ▸ h.writer)⟩
  have hget : update (update (update o p0 a) p1 b) fd none e = some f := by
    rcases he with ⟨rfl,rfl⟩ | ⟨rfl,rfl⟩
    · rw [update_of_ne h0,update_of_ne h.ne,update_self]
    · rw [update_of_ne h1,update_self]
  have hdup := fdalloc_lowest (o := update (update (update o p0 a) p1 b) fd none) (f := f) hnofile
    (fun y hy => by
      rw [update_of_ne (ne_of_lt hy),update_of_ne (hlow0 y hy).2,update_of_ne (hlow0 y hy).1]
      exact hlow y hy) (update_self ..)
  simp only [finish,foldlM_cons,foldlM_nil,Call.exec,hget,bind_some,hdup,if_true,
    Option.bind_eq_bind,Option.pure_def,some.injEq]
  funext y
  by_cases hy0 : y = p0
  · simp [hy0,h.ne,h0,h.reader]
  by_cases hy1 : y = p1
  · simp [hy1,h1,h.writer]
  by_cases hy : y = fd
  · simp [hy,h0.symm,h1.symm]
  · simp [hy0,hy1,hy]

theorem entry_writer (i fd j : Nat) : entry shell i fd ≠ some (.writer j) := by
  cases i with
  | zero => simp [entry]
  | succ i => by_cases hfd : fd = 0 <;> simp [entry,hfd]

theorem entry_fds (i : Nat) :
    entry shell i 0 = (if i = 0 then (shell 0).map .other else some (.reader (i - 1))) ∧
      entry shell i 1 = (shell 1).map .other := by
  cases i <;> exact ⟨rfl,rfl⟩

theorem entry_open (h0 : shell 0 ≠ none) (h1 : shell 1 ≠ none) (i : Nat) :
    entry shell i 0 ≠ none ∧ entry shell i 1 ≠ none := by
  cases i <;> simp [entry,h0,h1]

theorem entry_succ (i : Nat) : update (entry shell i) 0 (some (.reader i)) = entry shell (i + 1) := by
  cases i with
  | zero => rfl
  | succ i => exact Function.update_idem ..

inductive Fits (shell : Nat → Option Nat) (cmds : List (List Str)) (n m : Nat) : Nat → Proc → Prop
  | entering {i : Nat} {o : Ofile} {todo : List Call} {c : List Str} {rest : List (List Str)}
      (hn : n = 2 * i + 1) (hm : m = i) (hc : cmds.drop i = c :: rest)
      (hfin : finish todo o = some (entry shell i)) :
      Fits shell cmds n m (2 * i) ⟨o,todo,.runcmd (line (c :: rest))⟩
  | forking {i p0 p1 : Nat} {c d : List Str} {rest : List (List Str)} {next : Next}
      (hc : cmds.drop i = c :: d :: rest) (hfree : Free (entry shell i) p0 p1) (hm : m = i + 1)
      (hnext : next = .forkLeft (line (c :: d :: rest)) c.length p0 p1 ∧ n = 2 * i + 1 ∨
        next = .forkRight (line (c :: d :: rest)) c.length p0 p1 ∧ n = 2 * i + 2) :
      Fits shell cmds n m (2 * i)
        ⟨update (update (entry shell i) p0 (some (.reader i))) p1 (some (.writer i)),[],next⟩
  | waiting {i : Nat} {o : Ofile} {todo : List Call} (hn : 2 * i + 3 ≤ n)
      (htodo : ∀ a ∈ todo, ∃ fd, a = .close fd)
      (hw : ∀ fd j, o fd = some (.writer j) → j = i ∧ .close fd ∈ todo) :
      Fits shell cmds n m (2 * i) ⟨o,todo,.wait⟩
  | exited {i : Nat} (hn : n = 2 * i + 1) : Fits shell cmds n m (2 * i) .exited
  | last {i : Nat} {c : List Str} (hc : cmds.drop i = [c]) (hn : n = 2 * i + 1) :
      Fits shell cmds n m (2 * i) ⟨entry shell i,[],.execSimple c⟩
  | writing {i : Nat} {o : Ofile} {todo : List Call} {c d : List Str} {rest : List (List Str)}
      (hc : cmds.drop i = c :: d :: rest)
      (hfin : finish todo o = some (update (entry shell i) 1 (some (.writer i)))) :
      Fits shell cmds n m (2 * i + 1) ⟨o,todo,.execSimple c⟩

def Inv (shell : Nat → Option Nat) (cmds : List (List Str)) (s : State) : Prop :=
  ∀ x < s.count, Fits shell cmds s.count s.pipes x (s.procs x)

theorem Fits.frame {n' m' : Nat} (h : Fits shell cmds n m x q) (hx : x ≠ 2 * i)
    (hn : n = 2 * i + 1 ∨ n = 2 * i + 2) (hle : n ≤ n') : Fits shell cmds n' m' x q := by
  cases h with
  | waiting hj htodo hw => exact .waiting (hj.trans hle) htodo hw
  | writing hc hfin => exact .writing hc hfin
  | entering hj | exited hj | last _ hj | forking _ _ _ hj => omega

theorem Inv.set (h : Inv shell cmds s) (hq : Fits shell cmds s.count s.pipes x q) :
    Inv shell cmds (s.set x q) := by
  intro y hy
  change Fits shell cmds s.count s.pipes y (update s.procs x q y)
  by_cases hyx : y = x
  · rwa [hyx,update_self]
  · rw [update_of_ne hyx]
    exact h y hy

theorem Inv.piped (h : Inv shell cmds s) (hn : s.count = 2 * i + 1)
    (hq : Fits shell cmds s.count (s.pipes + 1) (2 * i) q) :
    Inv shell cmds { s.set (2 * i) q with pipes := s.pipes + 1 } := by
  intro y hy
  change Fits shell cmds s.count (s.pipes + 1) y (update s.procs (2 * i) q y)
  by_cases hyi : y = 2 * i
  · rwa [hyi,update_self]
  · rw [update_of_ne hyi]
    exact (h y hy).frame hyi (.inl hn) (le_refl _)

theorem Inv.fork {child : Proc} (h : Inv shell cmds s)
    (hn : s.count = 2 * i + 1 ∨ s.count = 2 * i + 2)
    (hq : Fits shell cmds (s.count + 1) s.pipes (2 * i) q)
    (hchild : Fits shell cmds (s.count + 1) s.pipes s.count child) :
    Inv shell cmds ((s.set (2 * i) q).fork child) := by
  intro y hy
  change Fits shell cmds (s.count + 1) s.pipes y (update (update s.procs (2 * i) q) s.count child y)
  by_cases hyn : y = s.count
  · rwa [hyn,update_self]
  rw [update_of_ne hyn]
  by_cases hyi : y = 2 * i
  · rwa [hyi,update_self]
  · rw [update_of_ne hyi]
    exact (h y (lt_of_le_of_ne (Nat.le_of_lt_succ hy) hyn)).frame hyi hn (Nat.le_succ _)

theorem Inv.runcmd (hcmds : ∀ c ∈ cmds, c ≠ [] ∧ bar ∉ c) (h : Inv shell cmds s)
    (hn : s.count = 2 * i + 1) (hm : s.pipes = i) (hc : cmds.drop i = c :: rest) :
    Inv shell cmds (s.runcmd (2 * i) (entry shell i) (line (c :: rest))) := by
  have hmem : ∀ d ∈ c :: rest, d ≠ [] ∧ bar ∉ d := fun d hd => hcmds d (mem_of_mem_drop (hc ▸ hd))
  have hbar := (hmem c mem_cons_self).2
  unfold State.runcmd
  cases rest with
  | nil =>
    rw [findPipe_last hbar]
    exact h.set (.last hc hn)
  | cons d rest =>
    have hlong : c ≠ [] ∧ line (d :: rest) ≠ [] := by
      refine ⟨(hmem c mem_cons_self).1,?_⟩
      have hd := (hmem d (by simp)).1
      cases rest <;> simp [line,hd]
    rw [findPipe_line hbar]
    have hlen : ¬ (c.length = 0 ∨ c.length = (line (c :: d :: rest)).length - 1) := by
      have h1 := length_pos_iff.mpr hlong.1
      have h2 := length_pos_iff.mpr hlong.2
      simp only [line,length_append,length_cons]
      omega
    dsimp only
    rw [if_neg hlen]
    cases hp : pipe (entry shell i) s.pipes with
    | none => exact h.set (.exited hn)
    | some r =>
      obtain ⟨o',p0,p1⟩ := r
      obtain ⟨hfree,rfl⟩ := pipe_eq hp
      subst hm
      exact h.piped hn (.forking hc hfree rfl (.inl ⟨rfl,hn⟩))

theorem finish_step {a : Call} {todo : List Call} (h : finish (a :: todo) o = some o') :
    ∃ o₁, a.exec o = some o₁ ∧ finish todo o₁ = some o' := by
  rw [finish,foldlM_cons] at h
  exact bind_eq_some_iff.mp h

theorem inv_step {u : Unit} (hcmds : ∀ c ∈ cmds, c ≠ [] ∧ bar ∉ c) (h0 : shell 0 ≠ none)
    (h1 : shell 1 ≠ none) (h : Inv shell cmds s) (hs : step s x = some (s',u)) :
    Inv shell cmds s' := by
  obtain ⟨hx,hs⟩ := ite_none_left_eq_some.mp hs
  have hfits := h x (not_le.mp hx)
  generalize s.procs x = q at hfits hs
  cases hfits with
  | @entering i o todo c rest hn hm hc hfin =>
    cases todo with
    | nil =>
      cases hfin
      cases hs
      exact h.runcmd hcmds hn hm hc
    | cons a todo =>
      obtain ⟨o₁,ha,hfin⟩ := finish_step hfin
      simp only [ha] at hs
      cases hs
      exact h.set (.entering hn hm hc hfin)
  | @forking i p0 p1 c d rest _ hc hfree hm hnext =>
    obtain ⟨hfd0,hfd1⟩ := entry_open h0 h1 i
    rcases hnext with ⟨rfl,hn⟩ | ⟨rfl,hn⟩ <;> cases hs
    · rw [line,take_left]
      refine h.fork (.inl hn) (.forking hc hfree hm (.inr ⟨rfl,congrArg (· + 1) hn⟩))
        (hn ▸ .writing hc (finish_end hfree (fun y hy => ?_) hfd1 (by decide) (.inr ⟨rfl,rfl⟩)))
      rwa [show y = 0 by omega]
    · have hdrop : (line (c :: d :: rest)).drop (c.length + 1) = line (d :: rest) := by
        rw [line,← drop_drop,drop_left]
        rfl
      rw [hdrop]
      refine h.fork (.inr hn) (.waiting (by omega) (by simp) fun fd j hj => ?_)
        (hn ▸ .entering (i := i + 1) rfl hm ?_ ?_)
      · simp only [update_apply] at hj
        split at hj
        · cases hj
          simp [*]
        split at hj
        · cases hj
        · exact absurd hj (entry_writer i fd j)
      · rw [← drop_drop,hc]
        rfl
      · rw [finish_end hfree (fun y hy => absurd hy (Nat.not_lt_zero y)) hfd0 (by decide)
          (.inl ⟨rfl,rfl⟩),entry_succ]
  | @waiting i o todo hn htodo hw =>
    cases todo with
    | nil => cases hs
    | cons a todo =>
      obtain ⟨fd,rfl⟩ := htodo a mem_cons_self
      cases hs
      refine h.set (.waiting hn (fun b hb => htodo b (mem_cons_of_mem _ hb)) fun y j hy => ?_)
      by_cases hyf : y = fd
      · rw [hyf,update_self] at hy
        cases hy
      rw [update_of_ne hyf] at hy
      obtain ⟨hj,hmem⟩ := hw y j hy
      refine ⟨hj,(mem_cons.mp hmem).resolve_left fun heq => hyf ?_⟩
      cases heq
      rfl
  | exited | last => cases hs
  | @writing i o todo c d rest hc hfin =>
    cases todo with
    | nil => cases hs
    | cons a todo =>
      obtain ⟨o₁,ha,hfin⟩ := finish_step hfin
      simp only [ha] at hs
      cases hs
      exact h.set (.writing hc hfin)

theorem inv_run (hcmds : ∀ c ∈ cmds, c ≠ [] ∧ bar ∉ c) (hk : 2 ≤ cmds.length) (h0 : shell 0 ≠ none)
    (h1 : shell 1 ≠ none) {xs : List Nat} {out : List Unit}
    (hrun : run step (start shell (line cmds)) xs = some (s,out)) : Inv shell cmds s := by
  refine run_preserves (fun s x s' u h hs => inv_step hcmds h0 h1 h hs) ?_ hrun
  intro x hx
  obtain rfl : x = 0 := Nat.lt_one_iff.mp hx
  cases cmds with
  | nil => cases hk
  | cons c rest => exact .entering (i := 0) rfl rfl rfl rfl

theorem drop_cons (h : cmds.drop i = c :: rest) :
    cmds.getD i [] = c ∧ cmds.length = i + 1 + rest.length := by
  have hlen := congrArg length h
  rw [length_drop,length_cons] at hlen
  rw [getD_eq_getElem?_getD,← head?_drop,h]
  exact ⟨rfl,by omega⟩

theorem Fits.of_reached (h : Fits shell cmds n m x q) (hq : q.reached) (hx : x = stage cmds.length i) :
    q.next = .execSimple (cmds.getD i []) ∧ q.ofile =
      if i + 1 = cmds.length then entry shell i else update (entry shell i) 1 (some (.writer i)) := by
  rw [stage] at hx
  cases h with
  | forking _ _ _ hnext => rcases hnext with ⟨rfl,-⟩ | ⟨rfl,-⟩ <;> cases hq
  | @entering _ _ todo | @waiting _ _ todo => cases todo <;> cases hq
  | exited => cases hq
  | @last j c hc _ =>
    obtain ⟨hget,hlen⟩ := drop_cons hc
    rw [length_nil] at hlen
    obtain rfl : j = i := by split at hx <;> omega
    rw [hget,if_pos hlen.symm]
    exact ⟨rfl,rfl⟩
  | @writing j _ todo c d rest hc hfin =>
    obtain ⟨hget,hlen⟩ := drop_cons hc
    rw [length_cons] at hlen
    obtain rfl : j = i := by split at hx <;> omega
    cases todo with
    | nil =>
      rw [hget,if_neg (by omega)]
      exact ⟨rfl,some.inj hfin⟩
    | cons => cases hq

theorem pipeline_wired (shell : Nat → Option Nat) (cmds : List (List Str)) (hk : 2 ≤ cmds.length)
    (hcmds : ∀ c ∈ cmds, c ≠ [] ∧ bar ∉ c) (h0 : shell 0 ≠ none) (h1 : shell 1 ≠ none)
    (xs : List Nat) (s : State) (out : List Unit)
    (hrun : run step (start shell (line cmds)) xs = some (s,out))
    (hreached : ∀ i < cmds.length, stage cmds.length i < s.count ∧
      (s.procs (stage cmds.length i)).reached) :
    (∀ i < cmds.length, (s.procs (stage cmds.length i)).next = .execSimple (cmds.getD i []) ∧
      (s.procs (stage cmds.length i)).ofile 0 =
        (if i = 0 then (shell 0).map .other else some (.reader (i - 1))) ∧
      (s.procs (stage cmds.length i)).ofile 1 =
        (if i + 1 = cmds.length then (shell 1).map .other else some (.writer i))) ∧
    ∀ x < s.count, ∀ fd i, (s.procs x).ofile fd = some (.writer i) →
      x = stage cmds.length i ∨ x = 2 * i ∧ .close fd ∈ (s.procs x).todo := by
  have hinv := inv_run hcmds hk h0 h1 hrun
  have hstage : ∀ i < cmds.length, _ := fun i hi =>
    (hinv _ (hreached i hi).1).of_reached (hreached i hi).2 rfl
  refine ⟨fun i hi => ⟨(hstage i hi).1,?_⟩,fun x hx fd i hfd => ?_⟩
  · rw [(hstage i hi).2]
    split
    · exact entry_fds i
    · exact ⟨(entry_fds i).1,rfl⟩
  have hwrites : ∀ j < cmds.length, x = stage cmds.length j → x = stage cmds.length i := by
    rintro j hj rfl
    rw [(hstage j hj).2] at hfd
    split at hfd
    · exact absurd hfd (entry_writer j fd i)
    by_cases hfd1 : fd = 1
    · rw [hfd1,update_self] at hfd
      cases hfd
      rfl
    · rw [update_of_ne hfd1] at hfd
      exact absurd hfd (entry_writer j fd i)
  have hcount := (hreached (cmds.length - 1) (by omega)).1
  rw [stage,if_neg (by omega)] at hcount
  have hfits := hinv x hx
  generalize s.procs x = q at hfd hfits
  simp only [stage] at hwrites ⊢
  cases hfits with
  | waiting _ _ hw =>
    obtain ⟨rfl,hmem⟩ := hw fd i hfd
    exact .inr ⟨rfl,hmem⟩
  | exited => cases hfd
  | @entering j _ _ _ _ hn _ hc _ =>
    have := (drop_cons hc).2
    exact .inl (hwrites j (by omega) (by rw [if_neg (by omega)]))
  | @forking j _ _ _ _ _ _ hc _ _ hn =>
    have := (drop_cons hc).2
    rw [length_cons] at this
    omega
  | @last j _ hc hn => exact absurd hfd (entry_writer j fd i)
  | @writing j _ _ _ _ _ hc _ =>
    have := (drop_cons hc).2
    rw [length_cons] at this
    exact .inl (hwrites j (by omega) (by rw [if_pos (by omega)]))

def stdio (fd : Nat) : Option Nat := if fd < 3 then some fd else none

theorem pipeline_wired_three : ∃ s out, run step (start stdio (line [[[97]],[[98]],[[99]]]))
      [0,0,0,2,1,2,2,2,2,2,2,1,3,4,3,3,1,1,4,4,4,4,3] = some (s,out) ∧
    (s.procs 3).next = .execSimple [[98]] ∧ (s.procs 3).ofile 0 = some (.reader 0) ∧
      (s.procs 3).ofile 1 = some (.writer 1) := by
  refine run_shows
    (fun s => ∀ i < 3, stage 3 i < s.count ∧ (s.procs (stage 3 i)).reached) (by decide +kernel) ?_
  intro s out hrun hreached
  exact (pipeline_wired stdio [[[97]],[[98]],[[99]]] (by decide) (by decide) (by decide)
    (by decide) _ s out hrun hreached).1 1 (by decide)

theorem parent_holds_write_end : ∃ s out, run step (start stdio (line [[[97]],[[98]]]))
      [0,0,0,1,1,1,1,2,2,2,2,2] = some (s,out) ∧
    (∀ i < 2, stage 2 i < s.count ∧ (s.procs (stage 2 i)).reached) ∧ stage 2 0 ≠ 0 ∧
      (s.procs 0).ofile 4 = some (.writer 0) :=
  run_reaches (by decide +kernel)

end TinyOs.Shell
