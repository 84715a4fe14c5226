import TinyOs.Fs.Pipe
import TinyOs.Library.Ring

namespace TinyOs.Fs

open List Machine State Event

variable {P : Type} [DecidableEq P] [Fintype P] {pi : Pipe} {popped pushed src : List Byte}
  {s : State P}

def Pipe.Holds (pi : Pipe) (popped pushed : List Byte) : Prop :=
  Ring.Holds pipeSize word pi.data pi.nread pi.nwrite popped pushed

def Pipe.Wraps (pi : Pipe) (n : Nat) : Prop := word ≤ pi.nwrite + n ∧ pi.nread + pipeSize < word

instance (pi : Pipe) (n : Nat) : Decidable (pi.Wraps n) := inferInstanceAs (Decidable (_ ∧ _))

namespace Pipe

namespace Holds

theorem put (h : pi.Holds popped pushed) (hroom : pushed.length < popped.length + pipeSize)
    (b : Byte) : (pi.put b).Holds popped (pushed ++ [b]) :=
  h.push (by decide) hroom b

theorem putAll (h : pi.Holds popped pushed)
    (hroom : pushed.length + src.length ≤ popped.length + pipeSize) :
    (pi.putAll src).Holds popped (pushed ++ src) := by
  induction src generalizing pi pushed with
  | nil =>
    rw [append_nil]
    exact h
  | cons b src ih =>
    simp only [length_cons] at hroom
    have hput := h.put (by omega) b
    have hrest := ih hput (by simp only [length_append,length_singleton]; omega)
    rw [append_assoc,singleton_append] at hrest
    exact hrest

theorem full_iff (h : pi.Holds popped pushed) :
    pi.nwrite = (pi.nread + pipeSize) % word ↔ pushed.length = popped.length + pipeSize :=
  h.offset_eq (by decide) (by decide)

theorem fill (h : pi.Holds popped pushed) (src : List Byte) :
    (pi.fill src).1.Holds popped (pushed ++ (pi.fill src).2) := by
  induction src generalizing pi pushed with
  | nil =>
    simp only [Pipe.fill,append_nil]
    exact h
  | cons b src ih =>
    simp only [Pipe.fill]
    split
    · rw [append_nil]
      exact h
    rename_i hfull
    have hroom : pushed.length < popped.length + pipeSize :=
      lt_of_le_of_ne h.room fun heq => hfull (h.full_iff.mpr heq)
    have hrest := ih (h.put hroom b)
    rw [append_assoc,singleton_append] at hrest
    exact hrest

theorem empty_iff (h : pi.Holds popped pushed) :
    pi.nread = pi.nwrite ↔ popped.length = pushed.length :=
  Ring.Holds.empty_iff h (by decide)

theorem take (h : pi.Holds popped pushed) (n : Nat) :
    (pi.take n).1.Holds (popped ++ (pi.take n).2) pushed := by
  induction n generalizing pi popped with
  | zero =>
    simp only [Pipe.take,append_nil]
    exact h
  | succ n ih =>
    simp only [Pipe.take]
    split
    · rw [append_nil]
      exact h
    rename_i hempty
    have hne : popped.length < pushed.length :=
      lt_of_le_of_ne h.length_le fun heq => hempty (h.empty_iff.mpr heq)
    have hpop : Pipe.Holds { pi with nread := (pi.nread + 1) % word } _ _ := h.pop (by decide) hne
    have hrest := ih hpop
    rw [append_assoc,singleton_append] at hrest
    exact hrest

theorem space (h : pi.Holds popped pushed) {n : Nat} (hn : n ≤ pipeSize) (hwrap : ¬ pi.Wraps n)
    (htest : ¬ (pi.nread + pipeSize) % word < (pi.nwrite + n) % word) :
    pushed.length + n ≤ popped.length + pipeSize := by
  have hroom := h.room
  have hle := h.length_le
  have hr := h.read
  have hw := h.write
  simp only [Wraps,pipeSize,word] at *
  omega

end Holds

end Pipe

theorem pipeWriteLoop_holds (h : pi.Holds popped pushed) (killed : Bool) (i : Nat)
    (hwrap : 0 < src.length → src.length ≤ pipeSize → ¬ pi.Wraps src.length) :
    (pipeWriteLoop pi killed src i).pipe.Holds popped
        (pushed ++ (pipeWriteLoop pi killed src i).stored) ∧
      (pipeWriteLoop pi killed src i).got = [] := by
  have hsame : pi.Holds popped (pushed ++ []) := by rwa [append_nil]
  unfold pipeWriteLoop
  dsimp only
  split
  · rename_i hn
    split
    · split
      · exact ⟨hsame,rfl⟩
      · exact ⟨hsame,rfl⟩
    · rename_i htest
      exact ⟨h.putAll (h.space hn.2 (hwrap hn.1 hn.2) htest),rfl⟩
  · have hfill := h.fill (src.drop i)
    split
    · exact ⟨hfill,rfl⟩
    split
    · exact ⟨hfill,rfl⟩
    · exact ⟨hfill,rfl⟩

theorem pipeRead_holds (h : pi.Holds popped pushed) (killed : Bool) (n : Nat) :
    (pipeRead pi killed n).pipe.Holds (popped ++ (pipeRead pi killed n).got) pushed ∧
      (pipeRead pi killed n).stored = [] := by
  have hsame : pi.Holds (popped ++ []) pushed := by rwa [append_nil]
  unfold pipeRead
  split
  · split
    · exact ⟨hsame,rfl⟩
    · exact ⟨hsame,rfl⟩
  · exact ⟨h.take n,rfl⟩

namespace State

def entering (s : State P) : Op P → List Byte
  | .enter p =>
    match s.tasks p with
    | .ready (.write _ src _ _ _) => src
    | _ => []
  | _ => []

def NoWrap (s : State P) (op : Op P) : Prop :=
  0 < (s.entering op).length → (s.entering op).length ≤ pipeSize →
    ¬ s.pipe.Wraps (s.entering op).length

instance (s : State P) (op : Op P) : Decidable (s.NoWrap op) :=
  inferInstanceAs (Decidable (_ → _ → _))

omit [DecidableEq P] [Fintype P] in
theorem stretch_holds {p : P} {c : Call} (h : s.pipe.Holds popped pushed)
    (hp : s.tasks p = .ready c) (hwrap : s.NoWrap (.enter p)) :
    (s.stretch p c).pipe.Holds (popped ++ (s.stretch p c).got)
      (pushed ++ (s.stretch p c).stored) := by
  have hsame : s.pipe.Holds (popped ++ []) (pushed ++ []) := by
    rwa [append_nil,append_nil]
  cases c with
  | write f src i total rest =>
    simp only [NoWrap,entering,hp] at hwrap
    cases i with
    | none =>
      simp only [stretch,Stretch.map,pipeWrite]
      split
      · exact hsame
      obtain ⟨hholds,hgot⟩ := pipeWriteLoop_holds h (s.killed p) 0 hwrap
      rw [hgot,append_nil]
      exact hholds
    | some i =>
      obtain ⟨hholds,hgot⟩ := pipeWriteLoop_holds h (s.killed p) i hwrap
      simp only [stretch,Stretch.map,hgot,append_nil]
      exact hholds
  | read f n =>
    obtain ⟨hholds,hstored⟩ := pipeRead_holds h (s.killed p) n
    simp only [stretch,Stretch.map,hstored,append_nil]
    exact hholds
  | release f | openFifo f file => exact hsame

end State

omit [Fintype P] in
theorem Step.holds {s' : State P} {op : Op P} {es : List (Event P)} (h : Step s op s' es)
    (hh : s.pipe.Holds popped pushed) (hwrap : s.NoWrap op) :
    s'.pipe.Holds (popped ++ returned es) (pushed ++ stored es) := by
  have hsame : s.pipe.Holds (popped ++ []) (pushed ++ []) := by
    rwa [append_nil,append_nil]
  cases h with
  | enter hl hp =>
    simp only [stored_append,returned_append,stored_put,stored_got,
      returned_put,returned_got,append_nil,nil_append]
    exact stretch_holds hh hp hwrap
  | @leave p c r hp =>
    have hes : stored (afterReturn p r c).2 = [] ∧
        returned (afterReturn p r c).2 = [] := by
      cases c <;> simp only [afterReturn] <;> (try split) <;> (try split) <;> exact ⟨rfl,rfl⟩
    rw [hes.1,hes.2]
    exact hsame
  | refuse | write | read | close | openFifo | wake | park | settle | signal | efault =>
    exact hsame

omit [DecidableEq P] [Fintype P] in
theorem Created.holds (h : Created s) : s.pipe.Holds [] [] := by
  cases h <;> exact ⟨prefix_rfl,Nat.zero_le _,rfl,rfl,nofun⟩

theorem run_holds {s' : State P} {ops : List (Op P)} {out : List (List (Event P))}
    (h : Created s) (hwrap : Always State.step State.NoWrap s ops)
    (hrun : run State.step s ops = some (s',out)) :
    s'.pipe.Holds (returned out.flatten) (stored out.flatten) := by
  refine run_history
    (I := fun os s => s.pipe.Holds (returned os.flatten) (stored os.flatten))
    ?_ h.holds hwrap hrun
  intro os s op s' es hh hw hs
  have hstep := (step_cases hs).holds hh hw
  simpa only [flatten_append,flatten_singleton,returned_append,
    stored_append] using hstep

theorem pipe_fifo (s s' : State P) (ops : List (Op P)) (out : List (List (Event P)))
    (h : Created s) (hwrap : Always State.step State.NoWrap s ops)
    (hrun : run State.step s ops = some (s',out)) :
    returned out.flatten <+: stored out.flatten ∧
      (stored out.flatten).length - (returned out.flatten).length ≤ pipeSize := by
  have hh := run_holds h hwrap hrun
  refine ⟨hh.fifo,?_⟩
  have := hh.room
  omega

theorem pipe_fifo_two_writers :
    ∃ s' out, run State.step (pipealloc (fun _ => 0) 0 1 : State (Fin 2))
        [.write 0 1 [1,2],.write 1 1 [3],.enter 1,.wake 1,.leave 1,.enter 0,.wake 0,.leave 0,
          .read 1 0 2,.enter 1] = some (s',out) ∧
      returned out.flatten = [3,1] ∧ stored out.flatten = [3,1,2] ∧
      returned out.flatten <+: stored out.flatten ∧
      (stored out.flatten).length - (returned out.flatten).length ≤ pipeSize := by
  obtain ⟨⟨s',out⟩,hrun,htest⟩ := Option.map_eq_some_iff.mp (show
    (run step (pipealloc (fun _ => 0) 0 1 : State (Fin 2))
        [.write 0 1 [1,2],.write 1 1 [3],.enter 1,.wake 1,.leave 1,.enter 0,.wake 0,.leave 0,
          .read 1 0 2,.enter 1]).map
      (fun r => (returned r.2.flatten,stored r.2.flatten)) = some ([3,1],[3,1,2])
    by decide +kernel)
  obtain ⟨hret,hsto⟩ := Prod.mk.inj htest
  exact ⟨s',out,hrun,hret,hsto,pipe_fifo _ s' _ out (.pipe _ (by decide)) (by decide +kernel) hrun⟩

section Wrap

def zeroed (r w : Nat) : Pipe := ⟨fun _ => 0,r,w,1,1⟩

def only (pi : Pipe) (lock : Option Unit) (t : Task) : State Unit :=
  { pipealloc (fun _ => 0) 0 1 with pipe := pi, lock := lock, tasks := fun _ => t }

def round : List (Op Unit) :=
  [.write () 1 [0],.enter (),.wake (),.leave (),.read () 0 1,.enter (),.wake (),.leave ()]

theorem only_round {pi pi' pi'' : Pipe}
    (hw : pipeWrite pi false [0] = ⟨pi',[0],[],[.nread],.ret 1⟩)
    (hr : pipeRead pi' false 1 = ⟨pi'',[],[0],[.nwrite],.ret 1⟩) :
    run State.step (only pi none .idle) round = some (only pi'' none .idle,
      [[.start () [0]],[.put () 0],[],[.ret () 1],[],[.got 0],[],[.ret () 1]]) := by
  have hwrite : ∀ x, pipeWrite pi false [0] = x →
      run step (only pi none .idle) [.write () 1 [0],.enter ()] =
        some (only x.pipe (some ()) (.inside (.write 1 [0] none 0 []) x.wakes
          (x.map fun j => .write 1 [0] (some j) 0 []).flow),
          [[.start () [0]],x.stored.map (.put ()) ++ x.got.map .got]) := by
    rintro x rfl
    rfl
  have hread : ∀ x, pipeRead pi' false 1 = x →
      run step (only pi' none .idle) [.read () 0 1,.enter ()] =
        some (only x.pipe (some ()) (.inside (.read 0 1) x.wakes (x.map fun _ => .read 0 1).flow),
          [[],x.stored.map (.put ()) ++ x.got.map .got]) := by
    rintro x rfl
    rfl
  have hleave : ∀ pi c chan es, afterReturn () 1 c = (.idle,es) → run step
      (only pi (some ()) (.inside c [chan] (.ret 1))) [.wake (),.leave ()] =
      some (only pi none .idle,[[],es]) := by
    intro pi c chan es he
    exact congrArg (fun r : Task × List (Event Unit) => some (only pi none r.1,[[],r.2])) he
  exact run_append (run_append (hwrite _ hw) (hleave _ _ _ _ rfl))
    (run_append (hread _ hr) (hleave _ _ _ _ rfl))

theorem rounds_run (c : Nat) (h : c + pipeSize ≤ word) :
    ∃ ops out, run State.step (only (zeroed 0 0) none .idle) ops =
        some (only (zeroed c c) none .idle,out) ∧
      stored out.flatten = returned out.flatten := by
  induction c with
  | zero => exact ⟨[],[],rfl,rfl⟩
  | succ c ih =>
    obtain ⟨ops,out,hrun,heq⟩ := ih (by omega)
    simp only [pipeSize] at h
    have hone : (c + 1) % word = c + 1 := Nat.mod_eq_of_lt (by omega)
    have hfull : (c + 512) % word = c + 512 := Nat.mod_eq_of_lt (by omega)
    have hw : pipeWrite (zeroed c c) false [0] = ⟨zeroed c (c + 1),[0],[],[.nread],.ret 1⟩ := by
      simp [pipeWrite,pipeWriteLoop,zeroed,Pipe.putAll,Pipe.put,hone,hfull,pipeSize]
    have hr : pipeRead (zeroed c (c + 1)) false 1 =
        ⟨zeroed (c + 1) (c + 1),[],[0],[.nwrite],.ret 1⟩ := by
      simp [pipeRead,Pipe.take,zeroed,hone]
    refine ⟨ops ++ round,_,run_append hrun (only_round hw hr),?_⟩
    rw [flatten_append,stored_append,returned_append,heq]
    rfl

def overrun : List (Op Unit) :=
  [.write () 1 (List.replicate pipeSize 0),.enter (),.wake (),.leave (),.write () 1 [1],.enter (),
    .wake (),.leave ()]

theorem overrun_run : (run State.step (only (zeroed (word - 513) (word - 513)) none .idle)
      (overrun ++ [.read () 0 1,.enter ()])).map
    (fun r => (stored r.2.flatten,returned r.2.flatten)) =
    some (0 :: (List.replicate 511 0 ++ [1]),[1]) := by
  decide +kernel

theorem overrun_unread :
    (run State.step (only (zeroed (word - 513) (word - 513)) none .idle) overrun).map
      (fun r => ((stored r.2.flatten).length,(returned r.2.flatten).length)) =
    some (513,0) := by
  decide +kernel

theorem pipe_counter_wrap :
    (∃ ops s' out, run State.step (pipealloc (fun _ => 0) 0 1 : State Unit) ops =
        some (s',out) ∧
      pipeSize < (stored out.flatten).length - (returned out.flatten).length) ∧
    ∃ ops s' out, run State.step (pipealloc (fun _ => 0) 0 1 : State Unit) ops =
        some (s',out) ∧
      ¬ returned out.flatten <+: stored out.flatten := by
  obtain ⟨ops,out,hrun,heq⟩ := rounds_run (word - 513) (by decide)
  obtain ⟨⟨t,es⟩,ht,hlen⟩ := Option.map_eq_some_iff.mp overrun_unread
  obtain ⟨⟨u,fs⟩,hu,hes⟩ := Option.map_eq_some_iff.mp overrun_run
  obtain ⟨hsto,hret⟩ := Prod.mk.inj hlen
  obtain ⟨hsto',hret'⟩ := Prod.mk.inj hes
  refine ⟨⟨_,t,out ++ es,run_append hrun ht,?_⟩,
    ⟨_,u,out ++ fs,run_append hrun hu,?_⟩⟩
  · rw [flatten_append,stored_append,returned_append,length_append,length_append,heq]
    dsimp only at hsto hret
    rw [hsto,hret,pipeSize]
    omega
  · rw [flatten_append,stored_append,returned_append,heq]
    dsimp only at hsto' hret'
    rw [hsto',hret',prefix_append_right_inj,cons_prefix_cons]
    exact fun h => absurd h.1 (by decide)

end Wrap

end TinyOs.Fs
