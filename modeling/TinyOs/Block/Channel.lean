import TinyOs.Block.Requests

namespace TinyOs.Block

open List Option State
open Function (update update_of_ne update_self)
open Locks (Held)

variable {P D C : Type} [DecidableEq P] [DecidableEq D] [DecidableEq C] {ide : Ide D C}
  {s s' : State P D C} {op : Op P D} {p q x : P} {c : C} {d : D} {pc pc' : Pc P D C} {o : Option P}

structure Queues (s : State P D C) : Prop where
  nodup : ∀ d, (s.queue d).Nodup
  disk : ∀ d, ∀ p ∈ s.queue d, (s.bio p).disk = some d

namespace Queues

omit [DecidableEq P] [DecidableEq D] [DecidableEq C] in
theorem keep (h : Queues s) (hqueue : s'.queue = s.queue)
    (hbio : ∀ d, ∀ p ∈ s.queue d, s'.bio p = s.bio p) : Queues s' := by
  refine ⟨hqueue ▸ h.nodup,fun d p hp => ?_⟩
  rw [hqueue] at hp
  rw [hbio d p hp]
  exact h.disk d p hp

theorem step (h : Queues s) (hfit : ∀ x, Fits s x) (hplace : ∀ x, ∃ a, At s x a)
    (hs : Step ide s op s') : Queues s' := by
  cases hs with
  | call bio hrun hpc =>
    rename_i p
    refine h.keep rfl fun d x hx => update_of_ne ?_ ..
    rintro rfl
    obtain ⟨a,ha⟩ := hplace x
    cases (ha.of_queue hx).finished.mp ((hfit x).idle hpc)
  | push hrun hpc =>
    rename_i p d
    obtain ⟨a,ha⟩ := hplace p
    have hnot : p ∉ s.queue d := by
      intro hp
      cases ((ha.of_start (hpc ▸ trivial)).queue d).mp hp
    refine ⟨fun d' => ?_,fun d' x hx => ?_⟩
    · change (update s.queue d (s.queue d ++ [p]) d').Nodup
      by_cases hd : d' = d
      · rw [hd,update_self]
        exact (h.nodup d).append (nodup_singleton p) (disjoint_singleton.mpr hnot)
      · rw [update_of_ne hd]
        exact h.nodup d'
    change x ∈ update s.queue d (s.queue d ++ [p]) d' at hx
    change (s.bio x).disk = some d'
    by_cases hd : d' = d
    · subst hd
      rw [update_self,mem_append,mem_singleton] at hx
      rcases hx with hx | rfl
      · exact h.disk d' x hx
      · exact (hfit x).disk d' hpc
    · rw [update_of_ne hd] at hx
      exact h.disk d' x hx
  | pick hrun hpc hpick =>
    rename_i p q c d rest
    obtain ⟨-,hq⟩ := ideChanPick_some hpick
    have hsub : ∀ d', (update s.queue d rest d').Sublist (s.queue d') := by
      intro d'
      by_cases hd : d' = d
      · rw [hd,update_self,hq]
        exact sublist_cons_self q rest
      · rw [update_of_ne hd]
    exact ⟨fun d' => (h.nodup d').sublist (hsub d'),
      fun d' x hx => h.disk d' x ((hsub d').subset hx)⟩
  | _ => exact h.keep rfl fun _ _ _ => rfl

end Queues

def State.inHand (s : State P D C) (o : Option P) (d : D) : List P :=
  ((o.bind fun r => (s.pc r).hand).filter fun q => decide ((s.bio q).disk = some d)).toList

structure Channel (ide : Ide D C) (s : State P D C) (c : C) (o : Option P) : Prop where
  runs : Held (Pc.runs c) o s.pc
  busy : s.busy c = o.isSome
  served : ∀ d, ide.chan d = c → s.queue d ≠ [] → o.isSome = true
  disk : ∀ r q, o = some r → (s.pc r).hand = some q →
    ∃ d, ide.chan d = c ∧ (s.bio q).disk = some d
  order : ∀ d, ide.chan d = c →
    s.submitted d = s.completed d ++ (s.inHand o d).map s.tag ++ (s.queue d).map s.tag

omit [DecidableEq P] [DecidableEq C] in
theorem inHand_congr (hhand : ∀ r, o = some r → (s'.pc r).hand = (s.pc r).hand)
    (hbio : ∀ r q, o = some r → (s.pc r).hand = some q → s'.bio q = s.bio q) :
    s'.inHand o d = s.inHand o d := by
  cases o with
  | none => rfl
  | some r =>
    simp only [inHand,bind_some,hhand r rfl]
    cases hq : (s.pc r).hand with
    | none => rfl
    | some q => simp only [filter_some,hbio r q rfl hq]

omit [DecidableEq P] [DecidableEq C] in
theorem inHand_none (h : ∀ r, o = some r → (s.pc r).hand = none) : s.inHand o d = [] := by
  cases o with
  | none => rfl
  | some r => simp [inHand,h r rfl]

omit [DecidableEq P] [DecidableEq C] in
theorem mem_inHand (h : q ∈ s.inHand o d) : ∃ r, o = some r ∧ (s.pc r).hand = some q := by
  rw [inHand,mem_toList,filter_eq_some_iff] at h
  exact bind_eq_some_iff.mp h.1

omit [DecidableEq P] [DecidableEq C] in
theorem inHand_some {r : P} (h : (s.pc r).hand = some q) :
    s.inHand (some r) d = if (s.bio q).disk = some d then [q] else [] := by
  simp only [inHand,bind_some,h,filter_some,decide_eq_true_eq]
  split <;> rfl

namespace Channel

omit [DecidableEq C] in
theorem keep (h : Channel ide s c o) (hpc : s.pc p = pc) (hnew : s'.pc = update s.pc p pc')
    (hbusy : s'.busy c = s.busy c) (hqueue : ∀ d, ide.chan d = c → s'.queue d = s.queue d)
    (hbio : s'.bio = s.bio) (hcalls : s'.calls = s.calls)
    (hsub : ∀ d, ide.chan d = c → s'.submitted d = s.submitted d)
    (hcomp : ∀ d, ide.chan d = c → s'.completed d = s.completed d) (hruns : pc'.runs c ↔ pc.runs c)
    (hhand : pc.runs c → pc'.hand = pc.hand) : Channel ide s' c o := by
  have hhands : ∀ r, o = some r → (s'.pc r).hand = (s.pc r).hand := by
    intro r hr
    by_cases hrp : r = p
    · subst hrp
      rw [hnew,update_self,hpc]
      exact hhand (hpc ▸ (h.runs r).mpr hr)
    · rw [hnew,update_of_ne hrp]
  have htag : s'.tag = s.tag := by
    funext x
    rw [tag,tag,hcalls]
  refine ⟨?_,hbusy.trans h.busy,fun d hd => ?_,fun r q hr hq => ?_,fun d hd => ?_⟩
  · rw [hnew]
    exact h.runs.keep (hpc ▸ hruns)
  · rw [hqueue d hd]
    exact h.served d hd
  · rw [hhands r hr] at hq
    rw [hbio]
    exact h.disk r q hr hq
  · rw [hsub d hd,hcomp d hd,hqueue d hd,htag,inHand_congr hhands fun r q _ _ => by rw [hbio]]
    exact h.order d hd

omit [DecidableEq P] [DecidableEq C] in
theorem runner (h : Channel ide s c o) (hpc : s.pc p = pc) (hruns : pc.runs c) : o = some p :=
  (h.runs p).mp (hpc ▸ hruns)

omit [DecidableEq C] in
theorem call (h : Channel ide s c o) (hpc : s.pc p = .idle) (hp : At s p .finished)
    (hnew : s'.pc = update s.pc p .submit) (hbusy : s'.busy = s.busy)
    (hqueue : s'.queue = s.queue) (hbio : ∀ x ≠ p, s'.bio x = s.bio x)
    (hcalls : ∀ x ≠ p, s'.calls x = s.calls x) (hsub : s'.submitted = s.submitted)
    (hcomp : s'.completed = s.completed) : Channel ide s' c o := by
  have hhands : ∀ r, (s'.pc r).hand = (s.pc r).hand := hnew ▸ update_same hpc rfl
  have hhand : ∀ r q, (s.pc r).hand = some q → q ≠ p := by
    rintro r q hq rfl
    cases (hp.hand r).mp hq
  refine ⟨?_,hbusy ▸ h.busy,hqueue ▸ h.served,fun r q hr hq => ?_,fun d hd => ?_⟩
  · rw [hnew]
    exact h.runs.keep (hpc ▸ Iff.rfl)
  · rw [hhands] at hq
    rw [hbio q (hhand r q hq)]
    exact h.disk r q hr hq
  have hcur : s'.inHand o d = s.inHand o d :=
    inHand_congr (fun r _ => hhands r) fun r q _ hq => hbio q (hhand r q hq)
  have htag : ∀ x ≠ p, s'.tag x = s.tag x := by
    intro x hx
    rw [tag,tag,hcalls x hx]
  have hmine : ∀ x ∈ s.inHand o d, s'.tag x = s.tag x := by
    intro x hx
    obtain ⟨r,-,hr⟩ := mem_inHand hx
    exact htag x (hhand r x hr)
  have hqueued : ∀ x ∈ s.queue d, s'.tag x = s.tag x := by
    intro x hx
    refine htag x ?_
    rintro rfl
    cases (hp.queue d).mp hx
  rw [hsub,hcomp,hqueue,hcur,map_congr_left hmine,map_congr_left hqueued]
  exact h.order d hd

theorem rest (h : Channel ide s c o) (hpc : s.pc p = .run c) (hpick : ideChanPick ide s c = none) :
    Channel ide { s.setPc p .check with
      busy := update s.busy c false
      curRq := update s.curRq c none } c none := by
  have ho : o = some p := h.runner hpc rfl
  have hempty : ∀ d, ide.chan d = c → s.queue d = [] := fun d hd => ideChanPick_none hpick hd
  refine ⟨h.runs.release (hpc ▸ rfl) id,update_self ..,fun d hd hq => ?_,nofun,fun d hd => ?_⟩
  · exact absurd (hempty d hd) hq
  have horder := h.order d hd
  rwa [inHand_none] at horder
  rw [ho]
  rintro r ⟨⟩
  rw [hpc]
  rfl

theorem pick {rest : List P} (h : Channel ide s c o) (hq : Queues s) (hpc : s.pc p = .run c)
    (hpick : ideChanPick ide s c = some (d,q,rest)) :
    Channel ide { s.setPc p (.execute c q (s.bio q).size) with
      queue := update s.queue d rest
      curRq := update s.curRq c (some q) } c o := by
  obtain rfl : o = some p := h.runner hpc rfl
  obtain ⟨hdc,hqueue⟩ := ideChanPick_some hpick
  have hself : update s.pc p (.execute c q (s.bio q).size) p = _ := update_self ..
  have hdisk : (s.bio q).disk = some d := hq.disk d q (hqueue ▸ mem_cons_self)
  have hold : ∀ d', s.inHand (some p) d' = [] := by
    intro d'
    refine inHand_none ?_
    rintro r ⟨⟩
    rw [hpc]
    rfl
  refine ⟨h.runs.keep (hpc ▸ Iff.rfl),h.busy,fun _ _ _ => rfl,?_,fun d' hd' => ?_⟩
  · rintro r q' ⟨⟩ hq'
    change (update s.pc p (.execute c q (s.bio q).size) p).hand = some q' at hq'
    rw [hself] at hq'
    cases hq'
    exact ⟨d,hdc,hdisk⟩
  have horder := h.order d' hd'
  rw [hold] at horder
  rw [inHand_some (q := q) (by exact congrArg Pc.hand hself)]
  change s.submitted d' = s.completed d' ++ (if (s.bio q).disk = some d' then [q] else []).map s.tag
    ++ (update s.queue d rest d').map s.tag
  by_cases hd : d' = d
  · subst hd
    rw [update_self,if_pos hdisk,horder,hqueue]
    simp
  · rw [update_of_ne hd,if_neg,horder]
    rw [hdisk]
    exact fun he => hd (Option.some.inj he).symm

theorem push (h : Channel ide s (ide.chan d) o) (hpc : s.pc p = .enqueue d) :
    ∃ o', Channel ide (ideSubmitBio ide s p d) (ide.chan d) o' := by
  have hrunner : ∀ r, o = some r → r ≠ p := by
    rintro r hr rfl
    exact absurd ((h.runs r).mpr hr) (by rw [hpc]; exact id)
  have horder : ∀ o', (∀ d', (ideSubmitBio ide s p d).inHand o' d' = s.inHand o d') →
      ∀ d', ide.chan d' = ide.chan d → (ideSubmitBio ide s p d).submitted d' =
        (ideSubmitBio ide s p d).completed d' ++
          ((ideSubmitBio ide s p d).inHand o' d').map (ideSubmitBio ide s p d).tag ++
          ((ideSubmitBio ide s p d).queue d').map (ideSubmitBio ide s p d).tag := by
    intro o' ho' d' hd'
    rw [ho']
    change update s.submitted d (s.submitted d ++ [s.tag p]) d' =
      s.completed d' ++ (s.inHand o d').map s.tag ++
        (update s.queue d (s.queue d ++ [p]) d').map s.tag
    have hold := h.order d' hd'
    by_cases hd : d' = d
    · subst hd
      rw [update_self,update_self,hold,map_append,append_assoc]
      rfl
    · rw [update_of_ne hd,update_of_ne hd,hold]
  have hbusy' : (ideSubmitBio ide s p d).busy (ide.chan d) = true := update_self ..
  cases hbusy : s.busy (ide.chan d) with
  | true =>
    have hsome : o.isSome = true := h.busy.symm.trans hbusy
    have hpc' : (ideSubmitBio ide s p d).pc = update s.pc p .check := by
      simp only [ideSubmitBio,hbusy,if_true]
      rfl
    have hhands : ∀ r, ((ideSubmitBio ide s p d).pc r).hand = (s.pc r).hand :=
      hpc' ▸ update_same hpc rfl
    refine ⟨o,?_,hbusy'.trans hsome.symm,fun _ _ _ => hsome,fun r q hr hq => ?_,?_⟩
    · rw [hpc']
      exact h.runs.keep (hpc ▸ Iff.rfl)
    · rw [hhands] at hq
      exact h.disk r q hr hq
    · exact horder o fun d' => inHand_congr (fun r _ => hhands r) fun _ _ _ _ => rfl
  | false =>
    obtain rfl : o = none := isNone_iff_eq_none.mp (by
      rw [← not_isSome,← h.busy,hbusy]
      rfl)
    have hpc' : (ideSubmitBio ide s p d).pc = update s.pc p (.run (ide.chan d)) := by
      simp only [ideSubmitBio,hbusy]
      rfl
    have hself : (ideSubmitBio ide s p d).pc p = .run (ide.chan d) := by
      rw [hpc',update_self]
    refine ⟨some p,?_,hbusy',fun _ _ _ => rfl,?_,?_⟩
    · rw [hpc']
      exact h.runs.acquire rfl
    · rintro r q ⟨⟩ hq
      rw [hself] at hq
      cases hq
    · refine horder (some p) fun d' => inHand_none ?_
      rintro r ⟨⟩
      rw [hself]
      rfl

omit [DecidableEq C] in
theorem endIo (h : Channel ide s c o) (hpc : s.pc p = .endIo q (some c)) :
    Channel ide (bioWaitEndIo s p q (some c)) c o := by
  obtain rfl : o = some p := h.runner hpc rfl
  have hhand : (s.pc p).hand = some q := by
    rw [hpc]
    rfl
  have hself : (bioWaitEndIo s p q (some c)).pc p = .waking q (some c) := update_self ..
  obtain ⟨d,hd,hdisk⟩ := h.disk p q rfl hhand
  have hcomp : (bioWaitEndIo s p q (some c)).completed =
      update s.completed d (s.completed d ++ [s.tag q]) := by
    simp only [bioWaitEndIo,hdisk]
  refine ⟨h.runs.keep (hpc ▸ Iff.rfl),h.busy,h.served,?_,fun d' hd' => ?_⟩
  · rintro r q' ⟨⟩ hq'
    rw [hself] at hq'
    cases hq'
  have hnone : (bioWaitEndIo s p q (some c)).inHand (some p) d' = [] := by
    refine inHand_none ?_
    rintro r ⟨⟩
    rw [hself]
    rfl
  have horder := h.order d' hd'
  rw [inHand_some hhand,hdisk] at horder
  rw [hnone,hcomp]
  change s.submitted d' = _ ++ [] ++ (s.queue d').map s.tag
  by_cases heq : d' = d
  · subst heq
    rw [update_self,horder,if_pos rfl,append_nil]
    rfl
  · rw [update_of_ne heq,horder,if_neg fun he => heq (Option.some.inj he).symm]
    rfl

end Channel

theorem channel_step (h : ∀ c, ∃ o, Channel ide s c o) (hfit : ∀ x, Fits s x)
    (hplace : ∀ x, ∃ a, At s x a) (hqueue : Queues s) (hs : Step ide s op s') (c : C) :
    ∃ o, Channel ide s' c o := by
  obtain ⟨o,ho⟩ := h c
  cases hs with
  | call bio hrun hpc =>
    rename_i p
    obtain ⟨a,ha⟩ := hplace p
    exact ⟨o,ho.call hpc (ha.of_finished ((hfit p).idle hpc)) rfl rfl rfl
      (fun _ hx => update_of_ne hx ..) (fun _ hx => update_of_ne hx ..) rfl rfl⟩
  | refuse alloc st hrun hpc =>
    exact ⟨o,ho.keep hpc rfl rfl (fun _ _ => rfl) rfl rfl (fun _ _ => rfl) (fun _ _ => rfl)
      ⟨nofun,False.elim⟩ False.elim⟩
  | accept hrun hpc hd | handOff hrun hpc hlock | unlock hrun hpc | park hrun hpc =>
    exact ⟨o,ho.keep hpc rfl rfl (fun _ _ => rfl) rfl rfl (fun _ _ => rfl) (fun _ _ => rfl)
      Iff.rfl False.elim⟩
  | push hrun hpc =>
    rename_i p d
    by_cases hc : ide.chan d = c
    · subst hc
      exact ho.push hpc
    have hne : ∀ d', ide.chan d' = c → d' ≠ d := by
      rintro d' hd rfl
      exact hc hd
    refine ⟨o,ho.keep hpc rfl (update_of_ne (Ne.symm hc) ..)
      (fun d' hd => update_of_ne (hne d' hd) ..) rfl rfl
      (fun d' hd => update_of_ne (hne d' hd) ..) (fun _ _ => rfl) ?_ False.elim⟩
    split
    · exact Iff.rfl
    · exact ⟨hc,False.elim⟩
  | rest hrun hpc hpick =>
    rename_i p c'
    by_cases hc : c' = c
    · subst hc
      exact ⟨none,ho.rest hpc hpick⟩
    · exact ⟨o,ho.keep hpc rfl (update_of_ne (Ne.symm hc) ..) (fun _ _ => rfl) rfl rfl
        (fun _ _ => rfl) (fun _ _ => rfl) ⟨False.elim,hc⟩ fun h => absurd h hc⟩
  | pick hrun hpc hpick =>
    rename_i p q c' d rest
    by_cases hc : c' = c
    · subst hc
      exact ⟨o,ho.pick hqueue hpc hpick⟩
    have hd := (ideChanPick_some hpick).1
    refine ⟨o,ho.keep hpc rfl rfl (fun d' hd' => update_of_ne ?_ ..) rfl rfl
      (fun _ _ => rfl) (fun _ _ => rfl) Iff.rfl fun h => absurd h hc⟩
    rintro rfl
    exact hc (hd.symm.trans hd')
  | sector hrun hpc hleft =>
    exact ⟨o,ho.keep hpc rfl rfl (fun _ _ => rfl) rfl rfl (fun _ _ => rfl) (fun _ _ => rfl)
      (iff_of_eq (Eq.refl (_ = c))) fun _ => Eq.refl (some _)⟩
  | finish ok st hrun hpc | wake hrun hpc hlock =>
    exact ⟨o,ho.keep hpc rfl rfl (fun _ _ => rfl) rfl rfl (fun _ _ => rfl) (fun _ _ => rfl)
      Iff.rfl fun _ => rfl⟩
  | clear hrun hpc =>
    exact ⟨o,ho.keep hpc rfl rfl (fun _ _ => rfl) rfl rfl (fun _ _ => rfl) (fun _ _ => rfl)
      (by simp [Pc.runs]) fun _ => rfl⟩
  | endIo hrun hpc hlock =>
    rename_i p q next
    cases next with
    | none =>
      exact ⟨o,ho.keep hpc rfl rfl (fun _ _ => rfl) rfl rfl (fun _ _ => rfl) (fun _ _ => rfl)
        Iff.rfl nofun⟩
    | some c' =>
      by_cases hc : c' = c
      · subst hc
        exact ⟨o,ho.endIo hpc⟩
      obtain ⟨o',ho'⟩ := h c'
      obtain ⟨d,hd,hdisk⟩ := ho'.disk p q (ho'.runner hpc rfl) (hpc ▸ rfl)
      refine ⟨o,ho.keep hpc rfl rfl (fun _ _ => rfl) rfl rfl (fun _ _ => rfl) (fun d' hd' => ?_)
        Iff.rfl fun h => absurd (Option.some.inj h) hc⟩
      simp only [bioWaitEndIo,hdisk]
      refine update_of_ne ?_ ..
      rintro rfl
      exact hc (hd.symm.trans hd')
  | release hrun hpc =>
    rename_i p q next
    cases next with
    | none =>
      exact ⟨o,ho.keep hpc rfl rfl (fun _ _ => rfl) rfl rfl (fun _ _ => rfl) (fun _ _ => rfl)
        ⟨False.elim,nofun⟩ nofun⟩
    | some c' =>
      exact ⟨o,ho.keep hpc rfl rfl (fun _ _ => rfl) rfl rfl (fun _ _ => rfl) (fun _ _ => rfl)
        (by simp [Pc.runs]) fun _ => rfl⟩
  | leave hrun hpc hlock hdone | going hrun hpc hlock hdone =>
    rcases hpc with hpc | hpc <;>
      exact ⟨o,ho.keep hpc rfl rfl (fun _ _ => rfl) rfl rfl (fun _ _ => rfl) (fun _ _ => rfl)
        Iff.rfl False.elim⟩
  | signal hlock hsleep
  | dispatch hlock hready => exact ⟨o,ho.runs,ho.busy,ho.served,ho.disk,ho.order⟩

end TinyOs.Block
