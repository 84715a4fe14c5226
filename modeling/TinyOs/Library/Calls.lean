import Mathlib.Tactic.Common

variable {α β : Type*}

inductive Calls (α β : Type*) where
  | ret (b : β)
  | tick (k : Calls α β)
  | call (a : α) (k : β → Calls α β)

namespace Calls

open Option

variable {A B : β → Prop} {d : ℕ} {b : β} {sub : α → Option (β × ℕ)} {f : β → Calls α β}

def bind : Calls α β → (β → Calls α β) → Calls α β
  | ret b, f => f b
  | tick k, f => tick (k.bind f)
  | call a k, f => call a fun b => (k b).bind f

def eval (sub : α → Option (β × ℕ)) : Calls α β → Option (β × ℕ)
  | ret b => some (b,0)
  | tick k => (eval sub k).map fun r => (r.1,r.2 + 1)
  | call a k => (sub a).bind fun r => (eval sub (k r.1)).map fun q => (q.1,r.2 + q.2)

def nested (body : α → Calls α β) : ℕ → α → Option (β × ℕ)
  | 0, _ => none
  | d + 1, a => eval (nested body d) (body a)

inductive Runs (body : α → Calls α β) : Calls α β → β → Prop where
  | ret (b : β) : Runs body (ret b) b
  | tick {k : Calls α β} {b : β} (h : Runs body k b) : Runs body (tick k) b
  | call {a : α} {k : β → Calls α β} {b c : β} (ha : Runs body (body a) b)
      (hk : Runs body (k b) c) : Runs body (call a k) c

inductive Meets (body : α → Calls α β) : Calls α β → α → Prop where
  | here {a : α} {k : β → Calls α β} : Meets body (call a k) a
  | tick {k : Calls α β} {a : α} (h : Meets body k a) : Meets body (tick k) a
  | later {a a' : α} {k : β → Calls α β} {b : β} (ha : Runs body (body a) b)
      (hk : Meets body (k b) a') : Meets body (call a k) a'

inductive Nests (body : α → Calls α β) : ℕ → Calls α β → Prop where
  | zero {p : Calls α β} : Nests body 0 p
  | succ {n : ℕ} {p : Calls α β} {a : α} (hp : Meets body p a) (ha : Nests body n (body a)) :
      Nests body (n + 1) p

variable {body : α → Calls α β} {p : Calls α β}

theorem Runs.unique {c : β} (hb : Runs body p b) (hc : Runs body p c) : b = c := by
  induction hb generalizing c with
  | ret b =>
    cases hc
    rfl
  | tick h ih =>
    cases hc with
    | tick hc => exact ih hc
  | call ha hk iha ihk =>
    cases hc with
    | call ha' hk' =>
      obtain rfl := iha ha'
      exact ihk hk'

theorem eval_runs {b : β} {n : ℕ}
    (hsub : ∀ a b n, sub a = some (b,n) → Runs body (body a) b) (h : p.eval sub = some (b,n)) :
    Runs body p b := by
  induction p generalizing n with
  | ret c =>
    cases h
    exact .ret b
  | tick k ih =>
    obtain ⟨⟨c,m⟩,hk,hc⟩ := map_eq_some_iff.mp h
    cases hc
    exact .tick (ih hk)
  | call a k ih =>
    obtain ⟨⟨c,m⟩,ha,hc⟩ := bind_eq_some_iff.mp h
    obtain ⟨⟨e,l⟩,hk,he⟩ := map_eq_some_iff.mp hc
    cases he
    exact .call (hsub a c m ha) (ih c hk)

theorem nested_runs {a : α} {n : ℕ} (h : nested body d a = some (b,n)) : Runs body (body a) b := by
  induction d generalizing a b n with
  | zero => cases h
  | succ d ih => exact eval_runs (fun _ _ _ => ih) h

theorem eval_isSome_iff :
    (p.eval (nested body d)).isSome ↔ ∀ a, Meets body p a → (nested body d a).isSome := by
  induction p with
  | ret b => exact ⟨fun _ a ha => (by cases ha),fun _ => rfl⟩
  | tick k ih =>
    rw [eval,isSome_map,ih]
    refine ⟨fun h a ha => ?_,fun h a ha => h a (.tick ha)⟩
    cases ha with
    | tick ha => exact h a ha
  | call a k ih =>
    constructor
    · intro h a' ha'
      obtain ⟨q,hq⟩ := isSome_iff_exists.mp h
      obtain ⟨⟨b,n⟩,hb,hk⟩ := bind_eq_some_iff.mp hq
      cases ha' with
      | here => exact isSome_iff_exists.mpr ⟨_,hb⟩
      | later hr hm =>
        obtain rfl := (nested_runs hb).unique hr
        obtain ⟨e,he,-⟩ := map_eq_some_iff.mp hk
        exact (ih b).mp (isSome_iff_exists.mpr ⟨e,he⟩) a' hm
    · intro h
      obtain ⟨⟨b,n⟩,hb⟩ := isSome_iff_exists.mp (h a .here)
      have hk := (ih b).mpr fun a' ha' => h a' (.later (nested_runs hb) ha')
      rw [eval,hb,bind_some,isSome_map]
      exact hk

theorem eval_isSome_iff_not_nests : (p.eval (nested body d)).isSome ↔ ¬ Nests body (d + 1) p := by
  induction d generalizing p with
  | zero =>
    rw [eval_isSome_iff]
    constructor
    · intro h hn
      cases hn with
      | succ hp _ => exact absurd (h _ hp) (by simp [nested])
    · intro h a ha
      exact absurd (.succ ha .zero) h
  | succ d ih =>
    rw [eval_isSome_iff]
    constructor
    · intro h hn
      cases hn with
      | succ hp ha => exact ih.mp (h _ hp) ha
    · intro h a ha
      exact ih.mpr fun hn => h (.succ ha hn)

def Safe (A B : β → Prop) : Calls α β → Prop
  | ret b => B b
  | tick k => Safe A B k
  | call _ k => ∀ b, A b → Safe A B (k b)

theorem Safe.bind {C : β → Prop} (hp : p.Safe A B)
    (hf : ∀ b, B b → (f b).Safe A C) : (p.bind f).Safe A C := by
  induction p with
  | ret b => exact hf b hp
  | tick k ih => exact ih hp
  | call a k ih => exact fun b hb => ih b (hp b hb)

theorem Safe.mono {C : β → Prop} (hp : p.Safe A B) (h : ∀ b, B b → C b) : p.Safe A C := by
  induction p with
  | ret b => exact h b hp
  | tick k ih => exact ih hp
  | call a k ih => exact fun b hb => ih b (hp b hb)

theorem Safe.runs (hbody : ∀ a, (body a).Safe A A) (hp : p.Safe A B) (h : Runs body p b) : B b := by
  induction h generalizing B with
  | ret b => exact hp
  | tick _ ih => exact ih hp
  | call _ _ iha ihk => exact ihk (hp _ (iha (hbody _)))

def Within (Q : α → Prop) : ℕ → ℕ → Calls α β → Prop
  | _, _, ret _ => True
  | t, c, tick k => 0 < t ∧ Within Q (t - 1) c k
  | t, c, call a k => 0 < c ∧ Q a ∧ ∀ b, Within Q t (c - 1) (k b)

variable {Q : α → Prop} {t t' c c' : ℕ}

theorem Within.mono (h : p.Within Q t c) (ht : t ≤ t') (hc : c ≤ c') : p.Within Q t' c' := by
  induction p generalizing t t' c c' with
  | ret b => trivial
  | tick k ih => exact ⟨Nat.lt_of_lt_of_le h.1 ht,ih h.2 (Nat.sub_le_sub_right ht 1) hc⟩
  | call a k ih =>
    exact ⟨Nat.lt_of_lt_of_le h.1 hc,h.2.1,fun b => ih b (h.2.2 b) ht (Nat.sub_le_sub_right hc 1)⟩

theorem Within.bind (hp : p.Within Q t c) (hf : ∀ b, (f b).Within Q t' c') :
    (p.bind f).Within Q (t + t') (c + c') := by
  induction p generalizing t c with
  | ret b => exact (hf b).mono (Nat.le_add_left _ _) (Nat.le_add_left _ _)
  | tick k ih =>
    have hk := ih hp.2
    rw [← Nat.sub_add_comm hp.1] at hk
    exact ⟨Nat.add_pos_left hp.1 _,hk⟩
  | call a k ih =>
    refine ⟨Nat.add_pos_left hp.1 _,hp.2.1,fun b => ?_⟩
    have hk := ih b (hp.2.2 b)
    rw [← Nat.sub_add_comm hp.1] at hk
    exact hk

theorem eval_le {B : ℕ} {b : β} {n : ℕ}
    (hsub : ∀ a b n, Q a → sub a = some (b,n) → n ≤ B) (hp : p.Within Q t c)
    (h : p.eval sub = some (b,n)) : n ≤ t + c * B := by
  induction p generalizing t c b n with
  | ret e =>
    cases h
    exact Nat.zero_le _
  | tick k ih =>
    obtain ⟨⟨e,m⟩,hk,he⟩ := map_eq_some_iff.mp h
    cases he
    have := ih hp.2 hk
    have := hp.1
    omega
  | call a k ih =>
    obtain ⟨⟨e,m⟩,ha,he⟩ := bind_eq_some_iff.mp h
    obtain ⟨⟨f,l⟩,hk,hf⟩ := map_eq_some_iff.mp he
    cases hf
    have hl := ih e (hp.2.2 e) hk
    have hm := hsub a e m hp.2.1 ha
    obtain ⟨c,rfl⟩ := Nat.exists_eq_add_of_lt hp.1
    simp only [Nat.zero_add,Nat.add_sub_cancel] at hl ⊢
    rw [Nat.add_mul,Nat.one_mul]
    omega

end Calls
