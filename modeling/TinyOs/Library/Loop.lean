import Mathlib.Data.List.Basic

namespace Loop

open List

variable {α σ : Type*}

def forEach (body : α → σ → σ × Bool) : List α → σ → σ × Bool
  | [], s => (s,true)
  | a :: as, s =>
    match body a s with
    | (s',true) => forEach body as s'
    | (s',false) => (s',false)

variable {body : α → σ → σ × Bool} {as : List α} {s s' : σ}

theorem forEach_cons_true {a : α} (h : body a s = (s',true)) :
    forEach body (a :: as) s = forEach body as s' := by
  simp [forEach,h]

theorem forEach_cons_false {a : α} (h : body a s = (s',false)) :
    forEach body (a :: as) s = (s',false) := by
  simp [forEach,h]

theorem forEach_invariant {I : σ → Prop} (hbody : ∀ a ∈ as, ∀ s, I s → I (body a s).1) (hs : I s) :
    I (forEach body as s).1 := by
  induction as generalizing s with
  | nil => exact hs
  | cons a as ih =>
    have hstep := hbody a (by simp) s hs
    rcases hb : body a s with ⟨t,b⟩
    rw [hb] at hstep
    cases b with
    | true =>
      rw [forEach_cons_true hb]
      exact ih (fun c hc => hbody c (by simp [hc])) hstep
    | false =>
      rw [forEach_cons_false hb]
      exact hstep

theorem forEach_rule (body : α → σ → σ × Bool) (as : List α) {I : List α → σ → Prop} {E : σ → Prop}
    (hgood : ∀ done a rest s s', as = done ++ a :: rest → I done s → body a s = (s',true) →
      I (done ++ [a]) s')
    (hbad : ∀ done a rest s s', as = done ++ a :: rest → I done s → body a s = (s',false) → E s')
    (hs : I [] s) :
    ((forEach body as s).2 = true → I as (forEach body as s).1) ∧
      ((forEach body as s).2 = false → E (forEach body as s).1) := by
  have hgen : ∀ rest done s, as = done ++ rest → I done s →
      ((forEach body rest s).2 = true → I as (forEach body rest s).1) ∧
        ((forEach body rest s).2 = false → E (forEach body rest s).1) := by
    intro rest
    induction rest with
    | nil =>
      intro done s he hi
      rw [append_nil] at he
      exact ⟨fun _ => he ▸ hi,fun h => by simp [forEach] at h⟩
    | cons a rest ih =>
      intro done s he hi
      rcases hb : body a s with ⟨t,b⟩
      cases b with
      | true =>
        rw [forEach_cons_true hb]
        exact ih (done ++ [a]) t (by simp [he]) (hgood done a rest s t he hi hb)
      | false =>
        rw [forEach_cons_false hb]
        exact ⟨fun h => by simp at h,fun _ => hbad done a rest s t he hi hb⟩
  exact hgen as [] s rfl hs

theorem forEach_range_rule (body : Nat → σ → σ × Bool) (n : Nat) {I : Nat → σ → Prop}
    {E : σ → Prop} (hgood : ∀ i < n, ∀ s s', I i s → body i s = (s',true) → I (i + 1) s')
    (hbad : ∀ i < n, ∀ s s', I i s → body i s = (s',false) → E s') (hs : I 0 s) :
    ((forEach body (List.range n) s).2 = true → I n (forEach body (List.range n) s).1) ∧
      ((forEach body (List.range n) s).2 = false → E (forEach body (List.range n) s).1) := by
  have hsplit : ∀ done a rest, range n = done ++ a :: rest → a = done.length ∧ a < n := by
    intro done a rest he
    have hlen : done.length < (range n).length := by simp [he]
    have hget : (range n)[done.length] = a := by simp [he]
    rw [getElem_range] at hget
    rw [length_range] at hlen
    exact ⟨hget.symm,hget ▸ hlen⟩
  have h := forEach_rule body (range n) (s := s)
    (I := fun done s => I done.length s) (E := E) ?_ ?_ hs
  · simpa using h
  · intro done a rest s s' he hi hb
    obtain ⟨rfl,hlt⟩ := hsplit done a rest he
    simpa using hgood _ hlt s s' hi hb
  · intro done a rest s s' he hi hb
    obtain ⟨rfl,hlt⟩ := hsplit done a rest he
    exact hbad _ hlt s s' hi hb

end Loop
