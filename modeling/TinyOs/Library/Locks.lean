import Mathlib.Logic.Function.Basic

namespace Locks

open Function (update update_of_ne update_self)

variable {P τ : Type*} {holds : τ → Prop} {lock : Option P} {task task' : P → τ} {p q : P} {t : τ}

def Held (holds : τ → Prop) (lock : Option P) (task : P → τ) : Prop :=
  ∀ p, holds (task p) ↔ lock = some p

namespace Held

theorem free (h : Held holds none task) (p : P) : ¬ holds (task p) := by
  rw [h p]
  exact nofun

theorem unique (h : Held holds lock task) (hp : holds (task p)) (hq : holds (task q)) : p = q :=
  Option.some.inj (((h p).mp hp).symm.trans ((h q).mp hq))

theorem congr (h : Held holds lock task) (hsame : ∀ q, holds (task' q) ↔ holds (task q)) :
    Held holds lock task' :=
  fun q => (hsame q).trans (h q)

variable [DecidableEq P]

theorem keep (h : Held holds lock task) (ht : holds t ↔ holds (task p)) :
    Held holds lock (update task p t) := by
  refine h.congr fun q => ?_
  by_cases hq : q = p
  · rw [hq,update_self]
    exact ht
  · rw [update_of_ne hq]

theorem acquire (h : Held holds none task) (ht : holds t) :
    Held holds (some p) (update task p t) := by
  intro q
  by_cases hq : q = p
  · rw [hq,update_self]
    exact ⟨fun _ => rfl,fun _ => ht⟩
  · rw [update_of_ne hq]
    exact ⟨fun hh => absurd hh (h.free q),fun hs => absurd (Option.some.inj hs).symm hq⟩

theorem release (h : Held holds lock task) (hp : holds (task p)) (ht : ¬ holds t) :
    Held holds none (update task p t) := by
  intro q
  by_cases hq : q = p
  · rw [hq,update_self]
    exact ⟨fun hh => absurd hh ht,nofun⟩
  · rw [update_of_ne hq]
    exact ⟨fun hh => absurd (h.unique hh hp) hq,nofun⟩

end Held

end Locks
