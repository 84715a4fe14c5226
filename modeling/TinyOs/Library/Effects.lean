import Mathlib.Tactic.Common

namespace Effects

variable {ε : Type} {ρ : ε → Type} {α β : Type}

inductive Prog {ε : Type} (ρ : ε → Type) (α : Type) where
  | ret (a : α) : Prog ρ α
  | call (e : ε) (k : ρ e → Prog ρ α) : Prog ρ α

namespace Prog

def bind : Prog ρ α → (α → Prog ρ β) → Prog ρ β
  | .ret a, f => f a
  | .call e k, f => .call e fun r => (k r).bind f

instance : Monad (Prog ρ) where
  pure := .ret
  bind := bind

@[simp] theorem ret_bind (a : α) (f : α → Prog ρ β) : (pure a >>= f) = f a := rfl

def ask (e : ε) : Prog ρ (ρ e) := .call e .ret

def Outcome (ok : (e : ε) → ρ e → Prop) : Prog ρ α → α → Prop
  | .ret b, a => a = b
  | .call e k, a => ∃ r, ok e r ∧ Outcome ok (k r) a

variable {p : Prog ρ α} {f : α → Prog ρ β} {ok : (e : ε) → ρ e → Prop} {a b : α} {c : β}

@[simp] theorem outcome_pure : (pure b : Prog ρ α).Outcome ok a ↔ a = b := Iff.rfl

theorem outcome_bind : (p >>= f).Outcome ok c ↔ ∃ a, p.Outcome ok a ∧ (f a).Outcome ok c := by
  induction p with
  | ret b => exact ⟨fun h => ⟨b,rfl,h⟩,fun ⟨_,hb,h⟩ => hb ▸ h⟩
  | call e k ih =>
    constructor
    · rintro ⟨r,hok,h⟩
      obtain ⟨a,ha,h⟩ := (ih r).mp h
      exact ⟨a,⟨r,hok,ha⟩,h⟩
    · rintro ⟨a,⟨r,hok,ha⟩,h⟩
      exact ⟨r,hok,(ih r).mpr ⟨a,ha,h⟩⟩

@[simp] theorem outcome_ask {e : ε} {r : ρ e} : (ask e : Prog ρ (ρ e)).Outcome ok r ↔ ok e r :=
  ⟨fun ⟨_,hok,h⟩ => h ▸ hok,fun hok => ⟨r,hok,rfl⟩⟩

theorem outcome_exists (h : ∀ e, ∃ r, ok e r) (p : Prog ρ α) : ∃ a, p.Outcome ok a := by
  induction p with
  | ret a => exact ⟨a,rfl⟩
  | call e k ih =>
    obtain ⟨r,hr⟩ := h e
    obtain ⟨a,ha⟩ := ih r
    exact ⟨a,r,hr,ha⟩

end Prog

end Effects
