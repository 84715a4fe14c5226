import Mathlib.Data.Fintype.BigOperators

namespace Forest

open Function (Injective iterate_add_apply iterate_succ_apply update update_of_ne update_self)

variable {V : Type*} [DecidableEq V] {par : V → V} {r d v x : V}

def Climbs (par : V → V) (r v : V) : Prop := ∃ n, par^[n] v = r

def Above (par : V → V) (d v : V) : Prop := ∃ n, par^[n] v = d

omit [DecidableEq V] in
theorem Climbs.refl : Climbs par r r := ⟨0,rfl⟩

omit [DecidableEq V] in
theorem Climbs.step (h : Climbs par r (par v)) : Climbs par r v := by
  obtain ⟨n,hn⟩ := h
  exact ⟨n + 1,hn⟩

omit [DecidableEq V] in
theorem iterate_eq_of_avoids {par' : V → V} (heq : ∀ x, x ≠ d → par' x = par x) {n : ℕ}
    (h : ∀ k, k < n → par^[k] v ≠ d) : par'^[n] v = par^[n] v := by
  induction n generalizing v with
  | zero => rfl
  | succ n ih =>
    rw [iterate_succ_apply,iterate_succ_apply,heq v (h 0 (Nat.succ_pos n))]
    exact ih fun k hk => h (k + 1) (Nat.succ_lt_succ hk)

theorem iterate_update {w : V} {n : ℕ} (h : ∀ k, k < n → par^[k] v ≠ d) :
    (update par d w)^[n] v = par^[n] v :=
  iterate_eq_of_avoids (fun _ hx => update_of_ne hx _ _) h

theorem Climbs.graft {w : V} (hw : Climbs par r w) (hno : ¬ Above par d w)
    (hx : Climbs par r x) : Climbs (update par d w) r x := by
  have hw' : Climbs (update par d w) r w := by
    obtain ⟨n,hn⟩ := hw
    exact ⟨n,by rw [iterate_update fun k _ hk => hno ⟨k,hk⟩,hn]⟩
  obtain ⟨n,hn⟩ := hx
  induction n generalizing x with
  | zero => exact ⟨0,hn⟩
  | succ n ih =>
    by_cases hxd : x = d
    · refine .step ?_
      rw [hxd,update_self]
      exact hw'
    · refine .step ?_
      rw [update_of_ne hxd]
      exact ih hn

theorem Climbs.update {w : V} (hv : ¬ Above par d x) (hx : Climbs par r x) :
    Climbs (update par d w) r x := by
  obtain ⟨n,hn⟩ := hx
  exact ⟨n,by rw [iterate_update fun k _ hk => hv ⟨k,hk⟩,hn]⟩

omit [DecidableEq V] in
theorem above_iff_lt_card [Fintype V] : Above par d v ↔ ∃ n < Fintype.card V, par^[n] v = d := by
  classical
  refine ⟨fun h => ?_,fun ⟨n,_,hn⟩ => ⟨n,hn⟩⟩
  have hfirst : ∀ m < Nat.find h, par^[m] v ≠ d := fun m hm => Nat.find_min h hm
  have hinj : Injective fun k : Fin (Nat.find h + 1) => par^[k] v := by
    have hlt : ∀ i j : Fin (Nat.find h + 1), i < j → par^[i] v ≠ par^[j] v := by
      intro i j hij heq
      have hj : (j : ℕ) ≤ Nat.find h := Nat.le_of_lt_succ j.isLt
      have hij' : (i : ℕ) < j := hij
      refine hfirst (Nat.find h - j + i) (by omega) ?_
      have hd : par^[Nat.find h] v = d := Nat.find_spec h
      rw [iterate_add_apply,heq,← iterate_add_apply,Nat.sub_add_cancel hj,hd]
    intro i j heq
    rcases lt_trichotomy i j with hij | hij | hij
    · exact absurd heq (hlt i j hij)
    · exact hij
    · exact absurd heq.symm (hlt j i hij)
  have hcard := Fintype.card_le_of_injective _ hinj
  rw [Fintype.card_fin] at hcard
  exact ⟨Nat.find h,hcard,Nat.find_spec h⟩

instance [Fintype V] : Decidable (Above par d v) := decidable_of_iff _ above_iff_lt_card.symm

end Forest
