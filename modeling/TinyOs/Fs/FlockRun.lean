import TinyOs.Fs.FlockSafe

namespace TinyOs.Flock

open Machine

open Function (update_of_ne update_self)

variable {P : Type} {s s' : State P} {p q : P} {f : Slot} {w : Want} {ip ip' : Nat} {x : Pc}
  {out : Option Int}

theorem wakeup_pc (s : State P) (ip : Nat) (q : P) :
    ((s.wakeup ip).pc q = s.pc q ∧ ∀ w, s.pc q = .asleep w → w.ip ≠ ip) ∨
      ∃ w, s.pc q = .asleep w ∧ (s.wakeup ip).pc q = .woken w := by
  simp only [State.wakeup]
  cases hq : s.pc q with
  | asleep w =>
    by_cases hip : w.ip = ip
    · exact .inr ⟨w,rfl,if_pos hip⟩
    refine .inl ⟨if_neg hip,fun w' hw' => ?_⟩
    cases hw'
    exact hip
  | user | scan | passed | found | woken | waking | closing | closeWake | closeEnd =>
    exact .inl ⟨rfl,nofun⟩

theorem Sole.wakeup {K : Pc → Prop} (h : Sole K s.pc) (hk : ∀ w, ¬ K (.woken w)) :
    Sole K (s.wakeup ip).pc := by
  have hold : ∀ q, K ((s.wakeup ip).pc q) → K (s.pc q) := by
    intro q hq
    rcases wakeup_pc s ip q with ⟨he,-⟩ | ⟨w,-,he⟩
    · rwa [he] at hq
    · rw [he] at hq
      exact absurd hq (hk w)
  exact fun p hp q hq hq' => h p (hold p hp) q hq (hold q hq')

theorem wakeup_asleep (h : (s.wakeup ip).pc q = .asleep w) : s.pc q = .asleep w ∧ w.ip ≠ ip := by
  rcases wakeup_pc s ip q with ⟨he,hne⟩ | ⟨w',-,he⟩
  · rw [he] at h
    exact ⟨h,hne w h⟩
  · rw [he] at h
    exact nomatch h

theorem Inv.wakeup (hi : Inv s) (ip : Nat) : Inv (s.wakeup ip) := by
  refine ⟨hi.exclusive,fun q => ?_,fun ip' => (hi.alone ip').wakeup fun _ => id,
    fun f => (hi.closer f).wakeup fun _ => id,fun q w hw => ?_⟩
  · have hfits := hi.fits q
    rcases wakeup_pc s ip q with ⟨he,-⟩ | ⟨w,hw,he⟩
    · rwa [he]
    rw [hw] at hfits
    rw [he]
    exact hfits
  refine (hi.wake q w (wakeup_asleep hw).1).imp id fun ⟨r,hr⟩ => ⟨r,?_⟩
  rcases wakeup_pc s ip r with ⟨he,-⟩ | ⟨w',hw',-⟩
  · rwa [he]
  · rw [hw'] at hr
    exact hr.elim

variable [DecidableEq P]

theorem Inv.woke {y : Pc} (hi : Inv s) (hpc : s.pc p = y)
    (hown : ∀ ip', Wakes s.files ip' y → ip' = ip) (hawake : ∀ w, y ≠ .asleep w)
    (own : Fits s.files x) (busy : ∀ ip, ¬ Busy ip x) (closer : ∀ f, Closes f x → Closes f y)
    (sleeps : ∀ w, x ≠ .asleep w) : Inv ((s.wakeup ip).goto p x) := by
  have hsame : (s.wakeup ip).pc p = y := by
    rcases wakeup_pc s ip p with ⟨he,-⟩ | ⟨w,hw,-⟩
    · exact he.trans hpc
    · exact absurd (hpc.symm.trans hw) (hawake w)
  refine (hi.wakeup ip).move own (fun ip' hb => absurd hb (busy ip')) (fun f hx => ?_)
    (fun w hw => absurd hw (sleeps w)) fun r w hr hw => ?_
  · exact (hi.wakeup ip).closer f p (hsame ▸ closer f hx)
  · exact absurd (hown w.ip (hsame ▸ hw)) (wakeup_asleep hr).2

theorem Inv.scan {i : Nat} (hi : Inv s) (hpc : s.pc p = .scan w i)
    (hs : s.run p = some (s',out)) : Inv s' := by
  have hfits := hi.fits p
  have hbusy : ∀ {ip}, w.ip = ip → Alone s p ip := by
    rintro ip rfl
    exact hi.alone w.ip p (by rw [hpc]; exact rfl)
  have hwakes : ∀ ip, ¬ Wakes s.files ip (s.pc p) := by
    rw [hpc]
    exact fun _ h => h
  rw [hpc] at hfits
  unfold State.run at hs
  rw [hpc] at hs
  dsimp only at hs
  split at hs
  case isTrue hlt =>
    split at hs
    case isTrue hc =>
      cases hs
      exact hi.move ⟨hfits.1,_,hc⟩ (fun _ h => hbusy h) (fun _ h => h.elim)
        (fun _ h => (nomatch h)) fun _ w _ hw => absurd hw (hwakes w.ip)
    case isFalse hc =>
      cases hs
      refine hi.move ⟨hfits.1,fun j hj => ?_⟩ (fun _ h => hbusy h) (fun _ h => h.elim)
        (fun _ h => (nomatch h)) fun _ w _ hw => absurd hw (hwakes w.ip)
      rcases Nat.lt_succ_iff_lt_or_eq.1 hj with hj | rfl
      · exact hfits.2 j hj
      · exact Bool.not_eq_true _ ▸ hc
  case isFalse hge =>
    cases hs
    exact hi.move ⟨hfits.1,fun j => hfits.2 j (lt_of_lt_of_le j.isLt (not_lt.1 hge))⟩
      (fun _ h => hbusy h) (fun _ h => h.elim) (fun _ h => (nomatch h))
      fun _ w _ hw => absurd hw (hwakes w.ip)

theorem Inv.closing (hi : Inv s) (hpc : s.pc p = .closing f)
    (hs : s.run p = some (s',out)) : Inv s' := by
  have hfits : (s.files f).ref = 0 := by
    have := hi.fits p
    rwa [hpc] at this
  have hcloser : ∀ g, f = g → ∀ q, q ≠ p → ¬ Closes g (s.pc q) := by
    rintro g rfl
    exact hi.closer f p (by rw [hpc]; exact rfl)
  unfold State.run at hs
  rw [hpc] at hs
  dsimp only at hs
  split at hs
  case h_1 l ip hl hip =>
    cases hs
    refine Change.inv _ (Release.change (f := f) ⟨less_setLock _ _,fun ip' ho _ => ?_,
      fun q ip' hq hqc _ => ?_,fun ip' hw => ?_⟩ hi ?_ (fun _ h => h) hcloser
      fun _ h => (nomatch h)) hi
    · have := ho.1
      omega
    · refine absurd ?_ (hcloser f rfl q hq)
      rw [hqc]
      exact rfl
    · rw [hpc] at hw
      exact Option.some.inj (hip.symm.trans hw.2)
    · exact (less_setLock s.files f).ref_zero hfits
  case h_2 hno =>
    cases hs
    refine hi.move hfits (fun _ h => h.elim) hcloser (fun _ h => (nomatch h)) fun _ w _ hw => ?_
    rw [hpc] at hw
    obtain ⟨l,hl⟩ := Option.ne_none_iff_exists'.1 hw.1
    exact (hno l w.ip hl hw.2).elim

theorem Inv.closeEnd (hi : Inv s) (hpc : s.pc p = .closeEnd f)
    (hs : s.run p = some (s',out)) : Inv s' := by
  have hfits : (s.files f).ref = 0 := by
    have := hi.fits p
    rwa [hpc] at this
  unfold State.run at hs
  rw [hpc] at hs
  cases hs
  refine Change.inv _ (Release.change (f := f) ⟨?_,fun ip' ho _ => ?_,fun q ip' hq hqc _ => ?_,
    fun ip' hw => ?_⟩ hi trivial (fun _ h => h) (fun _ h => h.elim) fun _ h => (nomatch h)) hi
  · refine ⟨⟨fun g hg => update_of_ne hg ..,?_,.inr ?_⟩,.inr ?_⟩
    · rw [update_self]
    · rw [update_self]
      exact hfits
    · rw [update_self]
  · have := ho.1
    omega
  · refine absurd ?_ (hi.closer f p (by rw [hpc]; exact rfl) q hq)
    rw [hqc]
    exact rfl
  · rw [hpc] at hw
    exact hw.elim

theorem Inv.run (hi : Inv s) (hg : Ordered s (.run p)) (hs : s.run p = some (s',out)) : Inv s' := by
  have hfits := hi.fits p
  have hturn : Turn s p (s.pc p) := hg
  cases hpc : s.pc p with
  | user | asleep =>
    unfold State.run at hs
    rw [hpc] at hs
    exact nomatch hs
  | scan w i => exact hi.scan hpc hs
  | closing f => exact hi.closing hpc hs
  | closeEnd f => exact hi.closeEnd hpc hs
  | passed w =>
    unfold State.run at hs
    rw [hpc] at hs hturn
    cases hs
    exact hi.assign hpc hturn
  | found w =>
    unfold State.run at hs
    rw [hpc] at hs hfits
    have hwakes : ∀ ip, ¬ Wakes s.files ip (s.pc p) := by
      rw [hpc]
      exact fun _ h => h
    dsimp only at hs
    split at hs
    case isTrue =>
      cases hs
      exact hi.move trivial (fun _ h => h.elim) (fun _ h => h.elim) (fun _ h => (nomatch h))
        fun _ w _ hw => absurd hw (hwakes w.ip)
    case isFalse =>
      cases hs
      refine hi.move hfits.1 (fun _ h => h.elim) (fun _ h => h.elim) (fun w' hw' => ?_)
        fun _ w _ hw => absurd hw (hwakes w.ip)
      cases hw'
      exact hfits.2
  | woken w =>
    unfold State.run at hs
    rw [hpc] at hs hfits hturn
    cases hs
    refine hi.move ⟨hfits,fun j hj => absurd hj (Nat.not_lt_zero _)⟩ (fun ip hb => hb ▸ hturn)
      (fun _ h => h.elim) (fun _ h => (nomatch h)) fun _ _ _ hw => ?_
    rw [hpc] at hw
    exact hw.elim
  | waking ip =>
    unfold State.run at hs
    rw [hpc] at hs
    cases hs
    refine hi.woke hpc (fun ip' hw => ?_) nofun trivial (fun _ h => h) (fun _ h => h.elim)
      fun _ h => (nomatch h)
    exact hw.symm
  | closeWake f ip =>
    unfold State.run at hs
    rw [hpc] at hs hfits
    cases hs
    exact hi.woke hpc (fun ip' hw => hw.symm) nofun hfits (fun _ h => h) (fun _ h => h)
      fun _ h => (nomatch h)

theorem Inv.step {op : Op P} (hi : Inv s) (hg : Ordered s op) (hs : step s op = some (s',out)) :
    Inv s' := by
  cases op with
  | flock p f op =>
    unfold Flock.step at hs
    dsimp only at hs
    split at hs
    case isTrue hpc =>
      have hinv := hi.flock hpc hg
      rw [Option.some.inj hs] at hinv
      exact hinv
    case isFalse => exact nomatch hs
  | close p f =>
    unfold Flock.step at hs
    dsimp only at hs
    split at hs
    case isTrue hpc => exact hi.close hpc hg hs
    case isFalse => exact nomatch hs
  | run p => exact hi.run hg hs

theorem flock_exclusive_when {ops : List (Op P)} {outs : List (Option Int)} {s₀ s : State P}
    (hstart : Start s₀) (hgood : Always step Ordered s₀ ops)
    (hrun : run step s₀ ops = some (s,outs)) :
    Exclusive s.files ∧ NoLostWakeup s := by
  have hi := run_keeps (I := Inv) (fun _ _ _ _ hi hg hs => hi.step hg hs) hstart.inv
    hgood hrun
  exact ⟨hi.exclusive,hi.wake⟩

def twoOpen : State (Fin 2) where
  files f := if f.val < 2 then ⟨.inode,1,none,some 7⟩ else ⟨.none,0,none,none⟩
  pc _ := .user

theorem twoOpen_start : Start twoOpen where
  idle _ := rfl
  free f := by
    simp only [twoOpen]
    split <;> rfl

def scanTurns (p : Fin 2) : List (Op (Fin 2)) := List.replicate (nfile + 1) (.run p)

def wokenRun : List (Op (Fin 2)) :=
  [.flock 0 0 lockEx] ++ scanTurns 0 ++ [.run 0,.flock 1 1 lockSh,.run 1,.run 1,.flock 0 0 lockUn,
    .run 0,.run 1] ++ scanTurns 1 ++ [.run 1]

theorem flock_exclusive_when_woken : ∃ s outs,
    run step twoOpen wokenRun = some (s,outs) ∧ (s.files 1).flock = some .sh ∧
      Exclusive s.files ∧ NoLostWakeup s := by
  exact run_shows (fun s => (s.files 1).flock = some .sh) (by decide +kernel)
    fun _ _ hs hlock => ⟨hlock,flock_exclusive_when twoOpen_start (by decide +kernel) hs⟩

theorem not_exclusive {files : Slot → File} {f g : Slot} {ip : Nat} (hne : f ≠ g)
    (hf : files f = ⟨.inode,1,some .ex,some ip⟩)
    (hg : files g = ⟨.inode,1,some .ex,some ip⟩) : ¬ Exclusive files := by
  intro hex
  have hfree := hex f g ip hne (by simp [Open,hf]) (by simp [Open,hg]) (by rw [hf])
  rw [hg] at hfree
  exact nomatch hfree

def Lost (w : Want) (s : State (Fin 2)) : Prop :=
  s.pc 0 = .user ∧ s.pc 1 = .asleep w ∧ ∀ i, conflicts s.files w i = false

instance Lost.instDecidable (w : Want) : DecidablePred (Lost w) :=
  fun _ => inferInstanceAs (Decidable (_ ∧ _))

theorem lost_wakeup {s : State (Fin 2)} {w : Want} (h : Lost w s) : ¬ NoLostWakeup s := by
  obtain ⟨hzero,hone,hnone⟩ := h
  intro hlost
  rcases hlost 1 w hone with ⟨i,hi⟩ | ⟨q,hq⟩
  · exact absurd hi (by rw [hnone i]; decide)
  match q with
  | 0 => exact (hzero ▸ hq : Wakes s.files w.ip .user)
  | 1 => exact (hone ▸ hq : Wakes s.files w.ip (.asleep w))

def bothPass : List (Op (Fin 2)) :=
  [.flock 0 0 lockEx,.flock 1 1 lockEx] ++ scanTurns 0 ++ scanTurns 1 ++ [.run 0,.run 1]

def unlockFirst : List (Op (Fin 2)) :=
  [.flock 0 0 lockEx] ++ scanTurns 0 ++ [.run 0,.flock 1 1 lockEx,.run 1,.flock 0 0 lockUn,.run 0,
    .run 1]

def downgrade : List (Op (Fin 2)) :=
  [.flock 0 0 lockEx] ++ scanTurns 0 ++ [.run 0,.flock 1 1 lockSh,.run 1,.run 1,
    .flock 0 0 lockSh] ++ scanTurns 0 ++ [.run 0]

theorem flock_races : Start twoOpen ∧
    (∃ s outs, run step twoOpen bothPass = some (s,outs) ∧ ¬ Exclusive s.files) ∧
    (∃ s outs, run step twoOpen unlockFirst = some (s,outs) ∧ ¬ NoLostWakeup s) ∧
    ∃ s outs, run step twoOpen downgrade = some (s,outs) ∧ ¬ NoLostWakeup s := by
  refine ⟨twoOpen_start,?_,?_,?_⟩
  · exact run_shows (fun s => s.files 0 = ⟨.inode,1,some .ex,some 7⟩ ∧
      s.files 1 = ⟨.inode,1,some .ex,some 7⟩) (by decide +kernel)
      fun _ _ _ h => not_exclusive (by decide) h.1 h.2
  · exact run_shows (Lost ⟨1,7,.ex,false⟩) (by decide +kernel) fun _ _ _ => lost_wakeup
  · exact run_shows (Lost ⟨1,7,.sh,false⟩) (by decide +kernel) fun _ _ _ => lost_wakeup

end TinyOs.Flock
