import TinyOs.Library.Machine

namespace Transition

variable {σ ι ω : Type*}

inductive Run (step : σ → ι → σ → Prop) : σ → List ι → σ → Prop
  | nil (s : σ) : Run step s [] s
  | cons {s t u : σ} {a : ι} {as : List ι} :
      step s a t → Run step t as u → Run step s (a :: as) u

namespace Run

variable {step : σ → ι → σ → Prop} {s t : σ} {as : List ι}

theorem invariant {inv : σ → Prop} (hstep : ∀ s a t, inv s → step s a t → inv t)
    (h : Run step s as t) (hs : inv s) : inv t := by
  induction h with
  | nil s => exact hs
  | cons hst _ ih => exact ih (hstep _ _ _ hs hst)

theorem of_run {next : σ → ι → Option (σ × ω)} {out : List ω}
    (hstep : ∀ s a t o, next s a = some (t,o) → step s a t)
    (h : Machine.run next s as = some (t,out)) : Run step s as t := by
  induction as generalizing s out with
  | nil =>
    cases h
    exact .nil _
  | cons a as ih =>
    obtain ⟨u,o,rest,hs,hr,-⟩ := Machine.run_cons h
    exact .cons (hstep s a u o hs) (ih hr)

end Run

end Transition
