import Mathlib.Algebra.Order.Ring.Nat

namespace Machine

open List Option

-- Runs are replayed with parties and slots numbered in `Fin 2` and `Fin 64`: the literals of the
-- two types take these instances in every module.
instance instNeZeroTwo : NeZero 2 := ⟨by decide⟩

instance instNeZeroSixtyFour : NeZero 64 := ⟨by decide⟩

variable {σ τ ι ω : Type*} {step : σ → ι → Option (σ × ω)} {step' : τ → ι → Option (τ × ω)}

def run (step : σ → ι → Option (σ × ω)) : σ → List ι → Option (σ × List ω)
  | s, [] => some (s,[])
  | s, a :: as => (step s a).bind fun r => (run step r.1 as).map fun q => (q.1,r.2 :: q.2)

def Always (step : σ → ι → Option (σ × ω)) (good : σ → ι → Prop) : σ → List ι → Prop
  | _, [] => True
  | s, a :: as => good s a ∧ (step s a).elim True fun r => Always step good r.1 as

instance Always.instDecidable {good : σ → ι → Prop} [∀ s a, Decidable (good s a)] :
    (s : σ) → (as : List ι) → Decidable (Always step good s as)
  | _, [] => .isTrue trivial
  | s, a :: as =>
    have : Decidable ((step s a).elim True fun r => Always step good r.1 as) :=
      match step s a with
      | none => .isTrue trivial
      | some r => Always.instDecidable r.1 as
    inferInstanceAs (Decidable (_ ∧ _))

variable {s s' u : σ} {as bs : List ι} {os out ps : List ω} {good : σ → ι → Prop}

theorem run_cons {a : ι} (h : run step s (a :: as) = some (s',os)) :
    ∃ t o rest, step s a = some (t,o) ∧ run step t as = some (s',rest) ∧ os = o :: rest := by
  obtain ⟨⟨t,o⟩,hs,h⟩ := bind_eq_some_iff.mp h
  obtain ⟨⟨u,rest⟩,hr,h⟩ := map_eq_some_iff.mp h
  obtain ⟨rfl,rfl⟩ := Prod.mk.inj h
  exact ⟨t,o,rest,hs,hr,rfl⟩

theorem exists_of_any {P : σ → Prop} [DecidablePred P] {o : Option σ}
    (h : o.any (fun s => P s) = true) : ∃ s, o = some s ∧ P s := by
  obtain ⟨s,ho,hs⟩ := (Option.any_eq_true _ _).mp h
  exact ⟨s,ho,of_decide_eq_true hs⟩

theorem run_reaches {P : σ → Prop} [DecidablePred P]
    (h : (run step s as).any (fun r => P r.1) = true) :
    ∃ t out, run step s as = some (t,out) ∧ P t := by
  obtain ⟨⟨t,out⟩,hr,ht⟩ := exists_of_any h
  exact ⟨t,out,hr,ht⟩

theorem run_shows (P : σ → Prop) {Q : σ → Prop} [DecidablePred P]
    (h : (run step s as).any (fun r => P r.1) = true)
    (hQ : ∀ t out, run step s as = some (t,out) → P t → Q t) :
    ∃ t out, run step s as = some (t,out) ∧ Q t := by
  obtain ⟨t,out,hr,ht⟩ := run_reaches h
  exact ⟨t,out,hr,hQ t out hr ht⟩

theorem always_of_forall (h : ∀ s a, good s a) (s : σ) (as : List ι) : Always step good s as := by
  induction as generalizing s with
  | nil => trivial
  | cons a as ih =>
    refine ⟨h s a,?_⟩
    cases step s a with
    | none => trivial
    | some r => exact ih r.1

theorem always_of_mem {good : ι → Prop} (h : ∀ a ∈ as, good a) (s : σ) :
    Always step (fun _ a => good a) s as := by
  induction as generalizing s with
  | nil => trivial
  | cons a as ih =>
    refine ⟨h a mem_cons_self,?_⟩
    cases step s a with
    | none => trivial
    | some r => exact ih (fun b hb => h b (mem_cons_of_mem a hb)) r.1

theorem Always.imp {good' : σ → ι → Prop} (himp : ∀ s a, good s a → good' s a)
    (h : Always step good s as) : Always step good' s as := by
  induction as generalizing s with
  | nil => trivial
  | cons a as ih =>
    obtain ⟨ha,has⟩ := h
    refine ⟨himp s a ha,?_⟩
    cases hs : step s a with
    | none => trivial
    | some r =>
      rw [hs] at has
      exact ih has

theorem Always.append (h : Always step good s (as ++ bs)) (hr : run step s as = some (s',os)) :
    Always step good s as ∧ Always step good s' bs := by
  induction as generalizing s os with
  | nil =>
    cases hr
    exact ⟨trivial,h⟩
  | cons a as ih =>
    obtain ⟨t,o,rest,ht,hrest,rfl⟩ := run_cons hr
    obtain ⟨ha,has⟩ := h
    rw [ht] at has
    obtain ⟨hfront,hback⟩ := ih has hrest
    refine ⟨⟨ha,?_⟩,hback⟩
    rw [ht]
    exact hfront

theorem run_history_from {I : List ω → σ → Prop}
    (hstep : ∀ os s a s' o, I os s → good s a → step s a = some (s',o) → I (os ++ [o]) s')
    (hs : I os s) (hgood : Always step good s as)
    (h : run step s as = some (s',out)) : I (os ++ out) s' := by
  induction as generalizing s os out with
  | nil =>
    cases h
    rw [append_nil]
    exact hs
  | cons a as ih =>
    obtain ⟨t,o,rest,ht,hr,rfl⟩ := run_cons h
    obtain ⟨ha,has⟩ := hgood
    rw [ht] at has
    have hrest := ih (hstep os s a t o hs ha ht) has hr
    rwa [append_assoc,singleton_append] at hrest

theorem run_history {I : List ω → σ → Prop}
    (hstep : ∀ os s a s' o, I os s → good s a → step s a = some (s',o) → I (os ++ [o]) s')
    (hs : I [] s) (hgood : Always step good s as) (h : run step s as = some (s',out)) : I out s' :=
  run_history_from hstep hs hgood h

theorem run_traces {I : List ω → σ → Prop}
    (hstep : ∀ os s a s' o, I os s → step s a = some (s',o) → I (os ++ [o]) s') (hs : I [] s)
    (h : run step s as = some (s',out)) : I out s' :=
  run_history (fun os s a s' o hI _ => hstep os s a s' o hI) hs
    (always_of_forall (fun _ _ => trivial) s as) h

theorem run_keeps {I : σ → Prop}
    (hstep : ∀ s a s' o, I s → good s a → step s a = some (s',o) → I s')
    (hs : I s) (hgood : Always step good s as) (h : run step s as = some (s',out)) : I s' :=
  run_history (I := fun _ => I) (fun _ s a s' o => hstep s a s' o) hs hgood h

theorem run_preserves {I : σ → Prop} (hstep : ∀ s a s' o, I s → step s a = some (s',o) → I s')
    (hs : I s) (h : run step s as = some (s',out)) : I s' :=
  run_keeps (fun s a s' o hI _ => hstep s a s' o hI) hs
    (always_of_forall (fun _ _ => trivial) s as) h

theorem run_length_le {I : σ → Prop} {μ : σ → Nat} {good : ι → Prop}
    (hstep : ∀ s a s' o, I s → good a → step s a = some (s',o) → I s' ∧ μ s' < μ s)
    (hs : I s) (hgood : ∀ a ∈ as, good a)
    (h : run step s as = some (s',out)) : as.length + μ s' ≤ μ s := by
  induction as generalizing s out with
  | nil =>
    cases h
    exact le_of_eq (zero_add _)
  | cons a as ih =>
    obtain ⟨t,o,rest,ht,hr,rfl⟩ := run_cons h
    obtain ⟨hI,hlt⟩ := hstep s a t o hs (hgood a mem_cons_self) ht
    have hrest := ih hI (fun b hb => hgood b (mem_cons_of_mem a hb)) hr
    rw [length_cons]
    omega

theorem run_split (h : run step s (as ++ bs) = some (u,out)) :
    ∃ t os ps, run step s as = some (t,os) ∧ run step t bs = some (u,ps) := by
  induction as generalizing s out with
  | nil => exact ⟨s,[],out,rfl,h⟩
  | cons a as ih =>
    obtain ⟨v,o,rest,hv,hr,rfl⟩ := run_cons h
    obtain ⟨t,os,ps,hos,hps⟩ := ih hr
    refine ⟨t,o :: os,ps,?_,hps⟩
    simp only [run,hv,bind_some,hos,map_some]

theorem run_append {t : σ} (h : run step s as = some (t,os)) (h' : run step t bs = some (u,ps)) :
    run step s (as ++ bs) = some (u,os ++ ps) := by
  induction as generalizing s os with
  | nil =>
    cases h
    exact h'
  | cons a as ih =>
    obtain ⟨v,o,rest,hv,hr,rfl⟩ := run_cons h
    simp only [cons_append,run,hv,bind_some,ih hr,map_some]

theorem run_refines {R : σ → τ → Prop}
    (hsim : ∀ s t a s' o, R s t → good s a → step s a = some (s',o) →
      ∃ t', step' t a = some (t',o) ∧ R s' t') {t : τ} (hst : R s t) (hgood : Always step good s as)
    (h : run step s as = some (s',os)) : ∃ t', run step' t as = some (t',os) ∧ R s' t' := by
  induction as generalizing s t os with
  | nil =>
    cases h
    exact ⟨t,rfl,hst⟩
  | cons a as ih =>
    obtain ⟨u,o,rest,hu,hr,rfl⟩ := run_cons h
    obtain ⟨ha,has⟩ := hgood
    rw [hu] at has
    obtain ⟨v,hv,huv⟩ := hsim s t a u o hst ha hu
    obtain ⟨t',ht',hR⟩ := ih huv has hr
    refine ⟨t',?_,hR⟩
    simp only [run,hv,bind_some,ht',map_some]

end Machine
