import TinyOs.Sched.Steps

namespace TinyOs.Sched

open Machine List Option State Event

variable {C : Type} {s s' : State C} {c : C} {p q : Slot}

def InExit (s : State C) (p : Slot) : Prop :=
  (∃ k, (s.proc p).pos = .exitCalled k) ∨ ∃ c, (∃ q, s.cpu c = .exiting p q) ∨ s.cpu c = .leave p true

def Parted (s : State C) (op : Op C) : Prop := HeadFree s op ∧
    match op with
    | .alloc _ => ∀ np ∈ (finRange nproc).find? fun i => i ≠ 0 && (s.proc i).state = .unused,
        ∀ d, (s.cpu d).leaving ≠ some np
    | .reap c => ∀ p, s.cpu c = .back p → (s.proc p).state = .unused →
        ∀ d, (s.cpu d).leaving ≠ some p
    | .waitScan c => ∀ p ∈ (s.cpu c).running?, ∀ pid ∈ (s.proc p).pos.scan?,
        ∀ z ∈ (finRange nproc).find? (s.isZombieKid p pid), ∀ d, (s.cpu d).leaving ≠ some z
    | _ => True

theorem InExit.holder_of_not_inUse (h : Inv s) (hexit : InExit s p) (hp : ¬ (s.proc p).inUse) :
    ∃ d, (s.cpu d).holder = some p := by
  rcases hexit with ⟨k,hk⟩ | ⟨c,⟨q,hc⟩ | hc⟩
  · exact absurd ((h.fits p).exiting k hk) hp
  · exact ⟨c,by rw [hc]; rfl⟩
  · exact ⟨c,by rw [hc]; rfl⟩

theorem freed_freeKstack {r : Proc} (h : freed p ∈ State.freeKstack r q) :
    p = q ∧ r.kstack = true := by
  unfold freeKstack at h
  split at h
  · rename_i hr
    simp only [mem_singleton,freed.injEq] at h
    exact ⟨h,hr⟩
  · cases h

theorem handed_freeKstack {r : Proc} : handed p ∉ State.freeKstack r q := by
  unfold freeKstack
  split <;> simp

theorem waitScan_events {pid : Int} {e : Event} (h : e ∈ (s.waitScan p pid).2) :
    ∃ z, (finRange nproc).find? (s.isZombieKid p pid) = some z ∧
      e ∈ State.freeKstack (s.proc z) z := by
  unfold waitScan at h
  split at h
  · rename_i z hz
    exact ⟨z,hz,h⟩
  · split at h <;> cases h

theorem procAlloc_events {e : Event} (h : e ∈ (s.procAlloc p).2) : ∃ np,
    ((finRange nproc).find? fun i => i ≠ 0 && (s.proc i).state = .unused) = some np ∧
      e = .handed np := by
  unfold procAlloc at h
  split at h
  · cases h
  rename_i np hnp
  split at h
  · cases h
  · exact ⟨np,hnp,mem_singleton.mp h⟩

theorem Inv.unheld (h : Inv s) (hp : ¬ (s.proc p).inUse)
    (hfree : ∀ d, (s.cpu d).leaving ≠ some p) :
    ¬ (s.proc p).inUse ∧ ∀ d, (s.cpu d).holder ≠ some p :=
  ⟨hp,fun d hd => hfree d (h.leaving (fun hrun => hp (.inl hrun)) hd)⟩

variable [DecidableEq C]

theorem kthreadReap_events {e : Event} (h : e ∈ (s.kthreadReap c p).2) :
    (s.proc p).state = .unused ∧ e ∈ State.freeKstack (s.proc p) p := by
  unfold kthreadReap at h
  split at h
  · rename_i hstate
    exact ⟨hstate,h⟩
  · cases h

theorem Inv.recycled (h : Inv s) {op : Op C} {r : State C × List Event} (hparted : Parted s op)
    (hs : s.step op = some r) (hp : freed p ∈ r.2 ∨ handed p ∈ r.2) :
    ¬ (s.proc p).inUse ∧ ∀ d, (s.cpu d).holder ≠ some p := by
  cases step_move hs with
  | @alloc c a hc _ =>
    rcases hp with hp | hp
    · obtain ⟨np,-,he⟩ := procAlloc_events hp
      cases he
    obtain ⟨np,hnp,he⟩ := procAlloc_events hp
    cases he
    have hfound := find?_some hnp
    simp only [Bool.and_eq_true,decide_eq_true_eq] at hfound
    exact h.unheld (Proc.not_inUse (.inl hfound.2)) (hparted.2 p hnp)
  | @reap c a hc =>
    rcases hp with hp | hp
    · obtain ⟨hunused,he⟩ := kthreadReap_events hp
      obtain ⟨rfl,-⟩ := freed_freeKstack he
      exact h.unheld (Proc.not_inUse (.inl hunused)) (hparted.2 p hc hunused)
    · exact absurd (kthreadReap_events hp).2 handed_freeKstack
  | @waitScan c a pid hc hpos =>
    rcases hp with hp | hp
    · obtain ⟨z,hz,he⟩ := waitScan_events hp
      obtain ⟨rfl,-⟩ := freed_freeKstack he
      apply h.unheld (Proc.not_inUse (.inr (.inr (waitScan_zombie hz).2)))
      exact hparted.2 a (by rw [hc]; rfl) pid (by rw [hpos]; rfl) p hz
    · obtain ⟨z,-,he⟩ := waitScan_events hp
      exact absurd he handed_freeKstack
  | @abandon c a np hc hpos =>
    rcases hp with hp | hp
    · obtain ⟨rfl,hkstack⟩ := freed_freeKstack hp
      rw [(h.fresh a p hpos).2.2.1] at hkstack
      cases hkstack
    · exact absurd hp handed_freeKstack
  | _ =>
    rcases hp with hp | hp <;> cases hp

instance [Fintype C] (s : State C) (op : Op C) : Decidable (Parted s op) := by
  apply Op.casesOn (motive := fun op => Decidable (Parted s op)) op <;> intros <;> unfold Parted <;>
    infer_instance

def childExits : List (Op Bool) :=
  [.dispatch false,.switchIn false,.alloc false,.publish false,.dispatch true,.switchIn true,
    .sleep true 7,.switchOut true,.reap true,.dispatch true,.switchIn true,.exitCall true false,
    .exitPublish true,.wait false (-1)]

end TinyOs.Sched
