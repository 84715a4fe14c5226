import TinyOs.Ramfs.Linear

namespace TinyOs.Create

open List Machine
open Function (update update_apply update_of_ne update_self)

variable {P Name : Type} [Fintype P] {s s' s₀ : State P Name} {p q : P} {call : P → Call Name}
  {i : Slot} {mem : Bool} {pc : Pc Name}

variable [DecidableEq Name]

structure Reached (call : P → Call Name) (s₀ s : State P Name) (order : List (P × Bool)) : Prop where
  inv : Inv call s₀ s
  linear : Linear call s₀ s order

variable [DecidableEq P]

theorem reached_run (h₀ : Start call s₀) {order : List (P × Bool)} {ops : List (P × Bool)}
    {outs : List Unit} (h : Reached call s₀ s order)
    (hgood : Always (step call) (Serial call) s ops)
    (hrun : run (step call) s ops = some (s',outs)) :
    ∃ later, Reached call s₀ s' (order ++ later) := by
  refine run_keeps (I := fun t => ∃ later, Reached call s₀ t (order ++ later)) ?_
    ⟨[],by rwa [append_nil]⟩ hgood hrun
  rintro t ⟨p,mem⟩ t' _ ⟨later,ht⟩ hg hst
  obtain ⟨u,hu,heq⟩ := Option.map_eq_some_iff.mp hst
  cases heq
  have hm := advance_moved hu
  obtain ⟨more,hmore⟩ := linear_moved h₀ ht.inv hg hm ht.linear
  exact ⟨later ++ more,inv_moved h₀ ht.inv hg hm,by rwa [← append_assoc]⟩

omit [DecidableEq P] in
theorem reached_start (h₀ : Start call s₀) : Reached call s₀ s₀ [] := by
  refine ⟨Inv.start h₀,rfl,nodup_nil,fun p r hp => ?_,fun _ _ => not_mem_nil⟩
  rw [h₀.pc p] at hp
  cases hp

theorem creation_linearizable (h₀ : Start call s₀) {ops more : List (P × Bool)}
    {outs outs' : List Unit}
    (hgood : Always (step call) (Serial call) s₀ (ops ++ more))
    (hrun : run (step call) s₀ ops = some (s,outs))
    (hmore : run (step call) s more = some (s',outs')) :
    (∃ order later, Linear call s₀ s order ∧ Linear call s₀ s' (order ++ later) ∧
      names s' = added call ((abs s₀ s₀).seq (IsDir call s₀) call (order ++ later)).2 ++ names s₀) ∧
    (names s').Nodup ∧
    (∀ p q i, (call p).Makes → (call q).Makes → (s'.pc p).slot = some i → (s'.pc q).slot = some i →
      p = q) ∧
    ∀ p i, s'.pc p = .done (some i) → ((call p).name,i) ∈ s'.dents ∧
      ((call p).Makes → (s'.inodes i).type = (call p).type ∧
        (s'.inodes i).data = (call p).data) := by
  obtain ⟨hfirst,hsecond⟩ := hgood.append hrun
  obtain ⟨order,ho⟩ := reached_run h₀ (reached_start h₀) hfirst hrun
  rw [nil_append] at ho
  obtain ⟨later,hl⟩ := reached_run h₀ ho hsecond hmore
  have hstart : (abs s₀ s₀).names.Nodup := abs_names ▸ h₀.names
  have hnames := Dir.seq_names (IsDir call s₀) call (order ++ later) hstart
  rw [hl.linear.final,abs_names,abs_names] at hnames
  refine ⟨⟨order,later,ho.linear,hl.linear,hnames.1⟩,hnames.2,?_,?_⟩
  · intro p q i hp hq hpi hqi
    have hmaker := ((hl.inv.has hpi).mine hp).2.1
    exact Option.some.inj (hmaker.symm.trans ((hl.inv.has hqi).mine hq).2.1)
  · intro p i hp
    have hf := hl.inv.fits p
    rw [hp] at hf
    cases hf with | done hhas hd he => exact ⟨he,fun hm => ⟨(hhas.mine hm).2.2,hd hm⟩⟩

instance (c : Call Name) : Decidable c.Makes := inferInstanceAs (Decidable (_ ≠ _))

instance (s : State P Name) (i : Slot) : Decidable (Used s i) := inferInstanceAs (Decidable (_ ≠ _))

instance : DecidablePred (Pc.Open : Pc Name → Prop)
  | .filling _ | .adding _ | .dentry _ | .linking _ | .storing _ _ | .undo _ => .isTrue trivial
  | .start | .choosing | .claiming _ | .putting _ | .done _ => .isFalse id

instance : DecidablePred (Pc.Claims : Pc Name → Prop)
  | .claiming _ => .isTrue trivial
  | .start | .choosing | .filling _ | .adding _ | .dentry _ | .linking _ | .storing _ _ | .undo _
  | .putting _ | .done _ => .isFalse id

instance : DecidablePred (Pc.Inside : Pc Name → Prop)
  | .dentry _ | .linking _ | .storing _ _ => .isTrue trivial
  | .start | .choosing | .claiming _ | .filling _ | .adding _ | .undo _ | .putting _ | .done _ =>
    .isFalse id

instance (call : P → Call Name) (s : State P Name) (op : P × Bool) :
    Decidable (Serial call s op) := by
  unfold Serial
  split <;> infer_instance

def emptyDir : State Bool Nat where
  inodes := fun i => if i = 0 then ⟨some .dir,1,none,none⟩ else .free
  dents := []
  pc := fun _ => .start

theorem emptyDir_start (call : Bool → Call Nat) (hcall : ∀ p, (call p).Makes) :
    Start call emptyDir where
  pc := fun _ => rfl
  free := by decide
  used := by decide
  maker := by decide
  counted := by decide
  names := nodup_nil
  source := fun p i n h => (Call.not_makes_link _ _ (h ▸ hcall p)).elim

def createSame : Bool → Call Nat := fun _ => .create 7 .file

def sameName : List (Bool × Bool) :=
  [(false,true),(true,true),(false,true),(true,true),(false,true),(true,true),(false,true),
    (true,true),(false,true),(true,true),(false,true),(false,true),(true,true),(true,true),
    (false,true),(true,true)]

theorem same_name_created_twice : Start createSame emptyDir ∧
    ∃ s outs, run (step createSame) emptyDir sameName = some (s,outs) ∧
      s.pc false = .done (some 1) ∧ s.pc true = .done (some 1) ∧ names s = [7,7] ∧
      ∀ order, ¬ Linear createSame emptyDir s order := by
  have h₀ : Start createSame emptyDir := emptyDir_start _ (by decide)
  refine ⟨h₀,run_shows (fun s => s.pc false = .done (some 1) ∧
    s.pc true = .done (some 1) ∧ names s = [7,7]) (by decide +kernel) ?_⟩
  rintro s outs - ⟨hfalse,htrue,hnames⟩
  refine ⟨hfalse,htrue,hnames,fun order hl => ?_⟩
  have hstart : (abs emptyDir emptyDir).names.Nodup := abs_names ▸ h₀.names
  have hnodup := (Dir.seq_names (IsDir createSame emptyDir) createSame order hstart).2
  rw [hl.final,abs_names,hnames] at hnodup
  exact absurd hnodup (by decide)

def apart : List (Bool × Bool) :=
  [(false,true),(true,true),(false,true),(false,true),(true,true),(true,true),(false,true),
    (false,true),(false,true),(false,true),(true,true),(false,true),(true,true)]

theorem creation_linearizable_apart :
    ∃ s outs, run (step createSame) emptyDir apart = some (s,outs) ∧
      (s.pc false = .done (some 1) ∧ s.pc true = .done none ∧ names s = [7]) ∧
      ∃ order, Linear createSame emptyDir s order := by
  refine run_shows (fun s => s.pc false = .done (some 1) ∧ s.pc true = .done none ∧
    names s = [7]) (by decide +kernel) fun s outs hrun hat => ⟨hat,?_⟩
  have hgood : Always (step createSame) (Serial createSame) emptyDir (apart ++ []) := by
    decide +kernel
  have h := creation_linearizable (emptyDir_start _ (by decide)) hgood hrun rfl
  obtain ⟨order,later,hl,-⟩ := h.1
  exact ⟨order,hl⟩

end TinyOs.Create
