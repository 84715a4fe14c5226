import TinyOs.Ipc.Sem
import TinyOs.Library.Count

namespace TinyOs.Sem

open Option State Machine
open Function (update update_of_ne update_self)
open Futex (Word Pc)

variable {n : Nat} {sh : Shared n} {s s' : State n} {op : Op n} {o : Option (Fin n × Int)}
  {p q : Fin n} {v : Word} {w : Bool} {u : User} {r : Futex.Proc}

def going (r : Futex.Proc) : Bool := r.state = .sleeping || match r.pc with
    | .matched _ _ | .handing _ _ | .parking _ _ => true
    | _ => false

def User.writes : User → Bool
  | .cas _ _ | .add | .sub => true
  | _ => false

def Few (sh : Shared n) (s : State n) : Op n → Prop
  | .go p => s.user p = .add → (s.value sh).toInt < semValueMax
  | _ => True

def Alone (sh : Shared n) (s : State n) : Op n → Prop
  | .go p =>
    (s.user p = .add → s.value sh = 0 ∨ ∀ q, going (s.kernel.proc q) = false) ∧
    ((s.user p).writes = true → ∀ q, (s.kernel.proc q).pc.got sh.word = [])
  | _ => True

def User.apart (woken : Bool) : User → Prop
  | .waiting | .posting | .sub => False
  | .load true | .cas true _ => True
  | _ => woken = false

inductive Fits (sh : Shared n) (p : Fin n) : User → Pc → Bool → Prop
  | waitCall : Fits sh p .waiting (.waitCall (sh.addr p) 0) false
  | copyin (got : List Futex.Byte) : Fits sh p .waiting (.copyin sh.word 0 got) false
  | matched : Fits sh p .waiting (.matched sh.word 0) false
  | handing : Fits sh p .waiting (.handing sh.word 0) false
  | parking : Fits sh p .waiting (.parking sh.word 0) false
  | asleep (w : Bool) : Fits sh p .waiting (.asleep sh.word 0) w
  | woken (ret : Int) (w : Bool) : Fits sh p .waiting (.leaving ret) w
  | waited (w : Bool) : Fits sh p .waiting .user w
  | wakeCall : Fits sh p .posting (.wakeCall (sh.addr p) 1) false
  | waking : Fits sh p .posting (.waking sh.word 1) false
  | woke (ret : Int) : Fits sh p .posting (.leaving ret) false
  | posted : Fits sh p .posting .user false
  | apart {u : User} {w : Bool} (h : u.apart w) : Fits sh p u .user w

def tok (u : User) (pc : Pc) (woken : Bool) : Nat :=
  if woken then 1
  else match u, pc with
    | .futexWake, _ | .posting, .wakeCall _ _ | .posting, .waking _ _ => 1
    | _, _ => 0

theorem tok_le_one (u : User) (pc : Pc) (w : Bool) : tok u pc w ≤ 1 := by
  simp only [tok]
  split
  · exact le_refl 1
  · split <;> decide

theorem tok_mono {w' : Bool} (h : w = true → w' = true) (u : User) (pc : Pc) :
    tok u pc w ≤ tok u pc w' := by
  cases w with
  | true => rw [h rfl]
  | false =>
    cases w' with
    | true => exact tok_le_one u pc false
    | false => exact le_refl _

def State.tok (s : State n) (q : Fin n) : Nat := Sem.tok (s.user q) (s.kernel.proc q).pc (s.woken q)

def State.tokens (s : State n) : Nat := ∑ q, s.tok q

structure Inv (sh : Shared n) (s : State n) : Prop where
  futex : Futex.Inv s.kernel
  copied : Futex.Copied s.kernel
  small : (s.value sh).toNat ≤ semValueMax
  fits : ∀ p, Fits sh p (s.user p) (s.kernel.proc p).pc (s.woken p)
  awake : ∀ p, s.woken p = true → (s.kernel.proc p).state ≠ .sleeping
  held : ∀ p wait v, s.user p = .cas wait v → 0 < v.toNat
  enough : (∃ q, going (s.kernel.proc q) = true) → (s.value sh).toNat ≤ s.tokens

theorem inv_start (sh : Shared n) (h : v.toNat ≤ semValueMax) : Inv sh (start v) := by
  refine ⟨Futex.inv_start _,nofun,h,fun _ => .apart rfl,nofun,nofun,?_⟩
  rintro ⟨q,hq⟩
  cases hq

section Kernel

variable {k k' : Futex.State n} {fop : Futex.Op n} {fo : Option (Fin n × Int)}

theorem enter_woken (s : State n) (k : Futex.State n) (q : Fin n) :
    (s.enter k).woken q = true ↔ s.woken q = true ∨
      (s.kernel.proc q).state = .sleeping ∧ (k.proc q).state ≠ .sleeping := by
  simp [enter]

theorem enter_same (h : ∀ q, (k.proc q).state = (s.kernel.proc q).state) :
    s.enter k = { s with kernel := k } := by
  simp [enter,h]

theorem futex_store (hat : s.kernel.at? p = some .user) (v : Word) :
    Futex.step sh.map s.kernel (.store p (sh.addr p) v) =
      some ({ s.kernel with mem := update s.kernel.mem sh.word v },none) := by
  simp only [Futex.step,hat,sh.mapped p]

theorem fits_trans {w' : Bool} (hk : IsKernel fop) (hf : Futex.Inv k)
    (h : Futex.Trans sh.map k fop p r) (hfits : Fits sh p u (k.proc p).pc w)
    (hw : w' = true ↔ w = true ∨ (k.proc p).state = .sleeping ∧ r.state ≠ .sleeping) :
    Fits sh p u r.pc w' ∧ (fop ≠ .scan p → tok u (k.proc p).pc w ≤ tok u r.pc w') := by
  have hsame : ((k.proc p).state = .sleeping → r.state = .sleeping) → w' = w := by
    intro hno
    rw [Bool.eq_iff_iff,hw,or_iff_left fun hsleep => hsleep.2 (hno hsleep.1)]
  cases h with
  | same =>
    rw [hsame id]
    exact ⟨hfits,fun _ => le_refl _⟩
  | woken hsleep =>
    obtain ⟨key,val,hpc,-⟩ := hf.asleep p hsleep
    refine ⟨?_,fun _ => tok_mono (fun h => hw.mpr (.inl h)) u _⟩
    change Fits sh p u (k.proc p).pc w'
    rw [hpc] at hfits ⊢
    cases hfits
    exact .asleep w'
  | dispatched hready =>
    rw [hsame (by rw [hready]; nofun)]
    exact ⟨hfits,fun _ => le_refl _⟩
  | called hop => exact (hop ▸ hk : IsKernel (.futexWait p _ _)).elim
  | own hrun hown =>
    rw [hsame id]
    dsimp only
    generalize (k.proc p).pc = pc at hown hfits
    cases hown with
    | wakeCall hop => exact (hop ▸ hk : IsKernel (.futexWake p _ _)).elim
    | begun val hlock hkey | wakeBegun nwake hkey | wakeRefused nwake hkey =>
      cases hfits
      rw [sh.mapped p] at hkey
      cases hkey
      all_goals exact ⟨by constructor,fun _ => le_refl _⟩
    | scanned key nwake ret hop =>
      cases hfits
      exact ⟨.woke ret,fun hscan => absurd hop hscan⟩
    | _ => cases hfits <;> exact ⟨by constructor,fun _ => le_refl _⟩
  | parked hrun hp =>
    rw [hsame fun _ => rfl]
    rw [hp] at hfits ⊢
    cases hfits
    exact ⟨.asleep false,fun _ => le_refl _⟩

theorem asleep_trans (h : Futex.Trans sh.map k fop p r)
    (hfits : Fits sh p u (k.proc p).pc w) (hw : w = true) (hold : (k.proc p).state ≠ .sleeping) :
    r.state ≠ .sleeping := by
  cases h with
  | same | called hop | own hrun hown => exact hold
  | woken hsleep | dispatched hready => exact nofun
  | parked hrun hp =>
    rw [hp] at hfits
    cases hfits
    cases hw

theorem going_trans (h : Futex.Trans sh.map k fop p r) (hr : going r = true) :
    going (k.proc p) = true ∨ ∃ key val got, (k.proc p).pc = .copyin key val got ∧
      3 ≤ got.length ∧ Futex.ofBytes (got ++ [Futex.byte (k.mem key) got.length]) = val := by
  cases h with
  | same => exact .inl hr
  | woken =>
    left
    simp only [going,Futex.Proc.wake] at hr ⊢
    simpa using Or.inr hr
  | dispatched =>
    left
    simp only [going] at hr ⊢
    simpa using Or.inr hr
  | called =>
    left
    simp only [going] at hr ⊢
    simp at hr
    simp [hr]
  | own hrun hown =>
    simp only [going,hrun] at hr ⊢
    generalize (k.proc p).pc = pc at hown
    cases hown with
    | equal hgot hval => exact .inr ⟨_,_,_,rfl,hgot,hval⟩
    | handOff | unlock => exact .inl rfl
    | _ => cases hr
  | parked hrun hp =>
    left
    simp [going,hp]

theorem Inv.kernel (hinv : Inv sh s) (hk : IsKernel fop)
    (hs : Futex.step sh.map s.kernel fop = some (k,fo)) (q : Fin n) :
    Fits sh q (s.user q) (k.proc q).pc ((s.enter k).woken q) ∧
      (fop ≠ .scan q → s.tok q ≤ (s.enter k).tok q) :=
  fits_trans hk hinv.futex (Futex.step_trans hs q) (hinv.fits q) (enter_woken s k q)

theorem Inv.sleeping (hinv : Inv sh s) (h : (s.kernel.proc q).state = .sleeping) :
    s.user q = .waiting ∧ s.woken q = false ∧ (s.kernel.proc q).asleepOn sh.word = true := by
  obtain ⟨key,val,hpc,hchan⟩ := hinv.futex.asleep q h
  have hfits := hinv.fits q
  rw [hpc] at hfits
  generalize hu : s.user q = u at hfits
  generalize hw : s.woken q = w at hfits
  cases hfits
  refine ⟨rfl,?_,by simp [Futex.Proc.asleepOn,h,hchan]⟩
  rw [← hw,← Bool.not_eq_true]
  exact fun hw => hinv.awake q hw h

theorem scan_tokens (hinv : Inv sh s) (hs : Futex.step sh.map s.kernel (.scan p) = some (k,fo)) :
    s.tokens ≤ (s.enter k).tokens ∨ ∀ q, going (k.proc q) = false := by
  simp only [Futex.step] at hs
  split at hs
  · rename_i key nwake hlock hat
    obtain ⟨hrun,hpc⟩ := Futex.State.at?_eq_some hat
    have hfits := hinv.fits p
    rw [hpc] at hfits
    generalize hu : s.user p = u at hfits
    generalize hwp : s.woken p = w at hfits
    cases hfits
    have hloop : (∃ t ∈ List.finRange n, (s.kernel.proc t).asleepOn sh.word = true ∧
          Futex.wakeLoop sh.word 1 s.kernel.proc =
            (update s.kernel.proc t (s.kernel.proc t).wake,1)) ∨
        (∀ t ∈ List.finRange n, (s.kernel.proc t).asleepOn sh.word = false) ∧
          Futex.wakeLoop sh.word 1 s.kernel.proc = (s.kernel.proc,0) :=
      Scan.upTo_one _
    rcases hloop with ⟨t,-,ht,hloop⟩ | ⟨hnone,hloop⟩
    · left
      rw [hloop] at hs
      cases hs
      have hsleep : (s.kernel.proc t).state = .sleeping := by
        simp only [Futex.Proc.asleepOn,Bool.and_eq_true,decide_eq_true_eq] at ht
        exact ht.1
      have htp : t ≠ p := by
        rintro rfl
        rw [hsleep] at hrun
        cases hrun
      obtain ⟨hut,hwt,-⟩ := hinv.sleeping hsleep
      obtain ⟨s',hs'⟩ : ∃ s', s' = s.enter (Futex.State.setPc { s.kernel with
        proc := update s.kernel.proc t (s.kernel.proc t).wake } p (.leaving 1)) := ⟨_,rfl⟩
      have hproc : ∀ q, q ≠ p → q ≠ t → s'.tok q = s.tok q := by
        intro q hqp hqt
        simp only [State.tok,hs',State.enter,Futex.State.setPc,update_of_ne hqp,update_of_ne hqt,
          Bool.and_not_self,Bool.or_false,decide_not]
      have htok_t : s.tok t = 0 ∧ s'.tok t = 1 := by
        simp [State.tok,hs',State.enter,Futex.State.setPc,tok,hut,hwt,htp,hsleep,Futex.Proc.wake]
      have htok_p : s.tok p = 1 ∧ s'.tok p = 0 := by
        simp [State.tok,hs',State.enter,Futex.State.setPc,tok,hu,hwp,hpc,htp.symm,hrun]
      have h1 := Count.sum_add_of_ne (f := s.tok) (g := update s.tok p 0) p fun q hq =>
        (update_of_ne hq _ _).symm
      have h2 := Count.sum_add_of_ne (f := s'.tok) (g := update s.tok p 0) t fun q hq => by
        by_cases hqp : q = p
        · rw [hqp,update_self,htok_p.2]
        · rw [update_of_ne hqp,hproc q hqp hq]
      rw [update_self,htok_p.1] at h1
      rw [update_of_ne htp,htok_t.1,htok_t.2] at h2
      have hle : s.tokens ≤ s'.tokens := by
        simp only [State.tokens]
        omega
      rw [hs'] at hle
      exact hle
    · right
      intro q
      rw [hloop] at hs
      cases hs
      rw [← Bool.not_eq_true]
      intro hq
      by_cases hqp : q = p
      · simp [hqp,Futex.State.setPc,going,hrun] at hq
      simp only [Futex.State.setPc,update_of_ne hqp,going,Bool.or_eq_true,decide_eq_true_eq] at hq
      rcases hq with hsleep | hq
      · have hon := (hinv.sleeping hsleep).2.2
        rw [hnone q (List.mem_finRange q)] at hon
        cases hon
      split at hq
      · rename_i hm
        exact absurd hm (hinv.futex.not_inside hpc hlock hqp (.inl trivial))
      · rename_i hh
        exact absurd hh (hinv.futex.not_inside hpc hlock hqp (.inr trivial))
      · rename_i hk
        exact absurd hk (hinv.futex.not_inside hpc hlock hqp (.inr trivial))
      · cases hq
  · cases hs

theorem kernel_mem (hk : IsKernel fop) (hs : Futex.step sh.map s.kernel fop = some (k,fo)) :
    k.mem = s.kernel.mem := by
  rcases Futex.step_mem hs with h | ⟨p,uaddr,v,w,rfl,-⟩
  · exact h
  · exact hk.elim

theorem kernel_untorn (hk : IsKernel fop) : Futex.Untorn sh.map s.kernel fop := by
  cases fop with
  | store p uaddr v => exact hk.elim
  | _ => trivial

theorem inv_kernel (hinv : Inv sh s) (hk : IsKernel fop)
    (hs : Futex.step sh.map s.kernel fop = some (k,fo)) : Inv sh (s.enter k) := by
  have hmem := kernel_mem hk hs
  have hvalue : (s.enter k).value sh = s.value sh := congrFun hmem sh.word
  have hfits := hinv.kernel hk hs
  refine ⟨Futex.inv_step hinv.futex hs,Futex.copied_step hinv.copied (kernel_untorn hk) hs,
    hvalue ▸ hinv.small,fun p => (hfits p).1,fun p hw hsleep => ?_,hinv.held,?_⟩
  · rcases (enter_woken s k p).mp hw with hold | ⟨-,hnot⟩
    · exact asleep_trans (Futex.step_trans hs p) (hinv.fits p) hold (hinv.awake p hold) hsleep
    · exact hnot hsleep
  rintro ⟨q,hq⟩
  rw [hvalue]
  rcases going_trans (Futex.step_trans hs q) hq with hold | ⟨key,val,got,hpc,hgot,hval⟩
  · have henough := hinv.enough ⟨q,hold⟩
    by_cases hscan : ∃ p, fop = .scan p
    · obtain ⟨p,rfl⟩ := hscan
      rcases scan_tokens hinv hs with hle | hnone
      · exact henough.trans hle
      have := hnone q
      rw [show going (k.proc q) = true from hq] at this
      cases this
    · exact henough.trans (Finset.sum_le_sum fun q _ => (hfits q).2 (not_exists.mp hscan q))
  · have hzero := (hinv.futex.equal hinv.copied hpc hgot hval).2
    have hf := hinv.fits q
    rw [hpc] at hf
    generalize s.user q = u at hf
    generalize s.woken q = w at hf
    cases hf
    rw [value,hzero]
    exact Nat.zero_le _

end Kernel

section Instr

structure Only (p : Fin n) (s s' : State n) : Prop where
  proc : ∀ q, q ≠ p → s'.kernel.proc q = s.kernel.proc q
  user : ∀ q, q ≠ p → s'.user q = s.user q
  woken : ∀ q, q ≠ p → s'.woken q = s.woken q

theorem Only.tokens (h : Only p s s') : s'.tokens + s.tok p = s.tokens + s'.tok p := by
  refine Count.sum_add_of_ne p fun q hq => ?_
  simp only [State.tok,h.proc q hq,h.user q hq,h.woken q hq]

theorem inv_only (hinv : Inv sh s) (h : Only p s s')
    (hfutex : Futex.Inv s'.kernel) (hcopied : Futex.Copied s'.kernel)
    (hsmall : (s'.value sh).toNat ≤ semValueMax) (hu : s'.user p = u) (hr : s'.kernel.proc p = r)
    (hw : s'.woken p = w) (hfits : Fits sh p u r.pc w) (hrun : r.state = .running)
    (hheld : ∀ wait v, u = .cas wait v → 0 < v.toNat) (hgoing : going ⟨.running,none,r.pc,0⟩ = false)
    (henough : (∃ q, going (s.kernel.proc q) = true) →
      (s'.value sh).toNat + s.tok p ≤ (s.value sh).toNat + tok u r.pc w ∨
        (s'.value sh).toNat = 0) : Inv sh s' := by
  subst hu hr hw
  refine ⟨hfutex,hcopied,hsmall,fun q => ?_,fun q => ?_,fun q wait v hq => ?_,?_⟩
  · by_cases hq : q = p
    · rw [hq]
      exact hfits
    · rw [h.proc q hq,h.user q hq,h.woken q hq]
      exact hinv.fits q
  · by_cases hq : q = p
    · rw [hq,hrun]
      exact fun _ => nofun
    · rw [h.proc q hq,h.woken q hq]
      exact hinv.awake q
  · by_cases hqp : q = p
    · rw [hqp] at hq
      exact hheld wait v hq
    · rw [h.user q hqp] at hq
      exact hinv.held q wait v hq
  · rintro ⟨q,hq⟩
    have hqp : q ≠ p := by
      rintro rfl
      simp only [going,hrun] at hq hgoing
      rw [hgoing] at hq
      cases hq
    rw [h.proc q hqp] at hq
    have hold := hinv.enough ⟨q,hq⟩
    have htok := h.tokens
    rw [State.tok,State.tok] at htok
    rw [State.tok] at henough
    rcases henough ⟨q,hq⟩ with hle | hzero <;> omega

theorem Only.setUser (u : User) : Only p s (s.setUser p u) :=
  ⟨fun _ _ => rfl,fun _ hq => update_of_ne hq _ _,fun _ _ => rfl⟩

theorem Only.retried (u : User) : Only p s ((s.retried p).setUser p u) :=
  ⟨fun _ _ => rfl,fun _ hq => update_of_ne hq _ _,fun _ hq => update_of_ne hq _ _⟩

theorem toInt_le_zero (h : v.toNat ≤ semValueMax) : v.toInt ≤ 0 ↔ v.toNat = 0 := by
  rw [BitVec.toInt_eq_toNat_of_lt (by simp only [semValueMax] at h; omega)]
  omega

section Running

variable (hinv : Inv sh s) (hat : s.kernel.at? p = some .user) {t : State n}

include hinv hat

theorem inv_user (h : Only p s s') (hkernel : s'.kernel = s.kernel)
    (hu : s'.user p = u) (hw : s'.woken p = w) (hfits : Fits sh p u .user w)
    (hheld : ∀ wait v, u = .cas wait v → 0 < v.toNat)
    (htok : s.tok p ≤ tok u .user w ∨ (s.value sh).toNat = 0) : Inv sh s' := by
  obtain ⟨hrun,hp⟩ := Futex.State.at?_eq_some hat
  have hvalue : s'.value sh = s.value sh := by rw [value,hkernel,value]
  refine inv_only hinv h (hkernel ▸ hinv.futex) (hkernel ▸ hinv.copied) (hvalue ▸ hinv.small) hu
    (congrFun (congrArg Futex.State.proc hkernel) p) hw (hp ▸ hfits) hrun hheld (hp ▸ rfl) fun _ => ?_
  rw [hvalue,hp]
  omega

theorem store_inv (hcopy : ∀ q, (s.kernel.proc q).pc.got sh.word = [])
    (ht : futex sh s (.store p (sh.addr p) v) = some t) : Futex.Inv t.kernel ∧ Futex.Copied t.kernel ∧
      t = { s with kernel := { s.kernel with mem := update s.kernel.mem sh.word v } } := by
  obtain ⟨⟨k,fo⟩,hk,rfl⟩ := map_eq_some_iff.mp ht
  have huntorn : Futex.Untorn sh.map s.kernel (.store p (sh.addr p) v) := by
    intro w hw q i hi
    rw [sh.mapped p] at hw
    cases hw
    rw [hcopy q] at hi
    cases hi
  have hinv' := Futex.inv_step hinv.futex hk
  have hcopied := Futex.copied_step hinv.copied huntorn hk
  rw [futex_store hat] at hk
  cases hk
  exact ⟨hinv',hcopied,enter_same fun _ => rfl⟩

theorem inv_stored (hcopy : ∀ q, (s.kernel.proc q).pc.got sh.word = [])
    (ht : futex sh s (.store p (sh.addr p) v) = some t) (h : Only p t s')
    (hkernel : s'.kernel = t.kernel) (hv : v.toNat ≤ semValueMax) (hu : s'.user p = u)
    (hw : s'.woken p = w) (hfits : Fits sh p u .user w) (hcas : ∀ wait v, u ≠ .cas wait v)
    (henough : (∃ q, going (s.kernel.proc q) = true) →
      v.toNat + s.tok p ≤ (s.value sh).toNat + tok u .user w) : Inv sh s' := by
  obtain ⟨hrun,hp⟩ := Futex.State.at?_eq_some hat
  obtain ⟨hfutex,hcopied,rfl⟩ := store_inv hinv hat hcopy ht
  have hvalue : s'.value sh = v := by
    rw [value,hkernel]
    exact update_self ..
  refine inv_only hinv ⟨h.proc,h.user,h.woken⟩ (hkernel ▸ hfutex) (hkernel ▸ hcopied)
    (hvalue ▸ hv) hu (congrFun (congrArg Futex.State.proc hkernel) p) hw (hp ▸ hfits) hrun
    (fun wait v hv => absurd hv (hcas wait v)) (hp ▸ rfl) fun hg => .inl ?_
  rw [hvalue,hp]
  exact henough hg

theorem inv_call {fop : Futex.Op n} {pc : Pc} {c : Nat}
    (ht : futex sh s fop = some t) (huntorn : Futex.Untorn sh.map s.kernel fop)
    (hstep : Futex.step sh.map s.kernel fop = some ({ s.kernel with
      proc := update s.kernel.proc p { s.kernel.proc p with
        pc := pc
        calls := c } },none))
    (hw : s.woken p = false) (hfits : Fits sh p u pc false) (hcas : ∀ wait v, u ≠ .cas wait v)
    (hgoing : going ⟨.running,none,pc,0⟩ = false) (htok : s.tok p ≤ tok u pc false) :
    Inv sh (t.setUser p u) := by
  obtain ⟨hrun,-⟩ := Futex.State.at?_eq_some hat
  obtain ⟨⟨k,fo⟩,hk,rfl⟩ := map_eq_some_iff.mp ht
  have hfutex := Futex.inv_step hinv.futex hk
  have hcopied := Futex.copied_step hinv.copied huntorn hk
  cases hk.symm.trans hstep
  have hstate : ∀ q, (update s.kernel.proc p { s.kernel.proc p with
      pc := pc
      calls := c } q).state = (s.kernel.proc q).state := by
    intro q
    by_cases hq : q = p
    · rw [hq,update_self]
    · rw [update_of_ne hq]
  rw [enter_same hstate]
  refine inv_only hinv ⟨fun _ hq => update_of_ne hq ..,fun _ hq => update_of_ne hq ..,fun _ _ => rfl⟩
    hfutex hcopied hinv.small (update_self ..) (update_self ..) hw hfits hrun
    (fun wait v hv => absurd hv (hcas wait v)) hgoing fun _ => .inl ?_
  exact Nat.add_le_add_left htok _

theorem inv_setUser (hfits : Fits sh p u .user (s.woken p))
    (hheld : ∀ wait v, u = .cas wait v → 0 < v.toNat)
    (htok : s.tok p ≤ tok u .user (s.woken p) ∨ (s.value sh).toNat = 0) : Inv sh (s.setUser p u) :=
  inv_user hinv hat (.setUser u) rfl (update_self ..) rfl hfits hheld htok

theorem instr_inv (hfew : Few sh s (.go p)) (halone : Alone sh s (.go p))
    (hs : instr sh s p = some (s',o)) : Inv sh s' := by
  obtain ⟨hrun,hp⟩ := Futex.State.at?_eq_some hat
  have hfits := hinv.fits p
  have hsmall := hinv.small
  have htok : s.tok p = tok (s.user p) .user (s.woken p) := by rw [State.tok,hp]
  rw [hp] at hfits
  generalize hu : s.user p = u at hfits
  generalize hw : s.woken p = w at hfits
  rw [hu] at htok
  simp only [instr,hu] at hs
  cases hfits with
  | waited =>
    cases hs
    exact inv_setUser hinv hat (.apart trivial) nofun (.inl (htok ▸ le_refl _))
  | posted =>
    cases hs
    refine inv_setUser hinv hat (.apart hw) nofun (.inl ?_)
    rw [htok,hw]
    exact le_refl _
  | apart h =>
    cases u with
    | idle => cases hs
    | waiting | posting | sub => exact h.elim
    | load wait =>
      dsimp only at hs
      split at hs
      · rename_i hzero
        have hval := (toInt_le_zero hsmall).mp hzero
        split at hs
        · cases hs
          exact inv_user hinv hat (.retried _) rfl (update_self ..) (update_self ..) (.apart rfl) nofun
            (.inr hval)
        · rename_i hwait
          cases hs
          rw [Bool.not_eq_true] at hwait
          rw [hwait] at h
          exact inv_setUser hinv hat (.apart (hw.trans h)) nofun (.inr hval)
      · rename_i hpos
        rw [toInt_le_zero hsmall] at hpos
        cases hs
        refine inv_setUser hinv hat (.apart ?_) ?_ (.inl (htok ▸ le_refl _))
        · rw [hw]
          cases wait <;> exact h
        · rintro w v ⟨⟩
          omega
    | cas wait old =>
      have hpos := hinv.held p wait old hu
      dsimp only at hs
      split at hs
      · rename_i hold
        obtain ⟨t,ht,hs⟩ := map_eq_some_iff.mp hs
        cases hs
        have hvalue : (old - 1).toNat + 1 = (s.value sh).toNat := by
          rw [hold,BitVec.toNat_sub]
          change (2 ^ 32 - 1 + old.toNat) % 2 ^ 32 + 1 = old.toNat
          omega
        refine inv_stored hinv hat (halone.2 (by rw [hu]; rfl)) ht (.retried _) rfl (by omega)
          (update_self ..) (update_self ..) (.apart rfl) nofun fun _ => ?_
        have := tok_le_one (s.user p) (s.kernel.proc p).pc (s.woken p)
        rw [State.tok]
        omega
      · cases hs
        refine inv_setUser hinv hat (.apart ?_) nofun (.inl (htok ▸ le_refl _))
        rw [hw]
        cases wait <;> exact h
    | futexWait =>
      obtain ⟨t,ht,hs⟩ := map_eq_some_iff.mp hs
      cases hs
      refine inv_call hinv hat ht trivial (if_pos hat) (hw.trans h) .waitCall nofun rfl ?_
      rw [htok,hw,h]
      exact le_refl _
    | add =>
      obtain ⟨t,ht,hs⟩ := map_eq_some_iff.mp hs
      have hlt := hfew hu
      rw [BitVec.toInt_eq_toNat_of_lt (by simp only [semValueMax] at hsmall; omega)] at hlt hs
      have hvalue : (s.value sh + 1).toNat = (s.value sh).toNat + 1 := by
        rw [BitVec.toNat_add]
        change ((s.value sh).toNat + 1) % 2 ^ 32 = _
        simp only [semValueMax] at hsmall
        omega
      have hcopy := halone.2 (by rw [hu]; rfl)
      have hwt : t.woken p = false := by
        rw [(store_inv hinv hat hcopy ht).2.2]
        exact hw.trans h
      have hadded : ∀ u : User, u.apart false → (∀ wait v, u ≠ .cas wait v) →
          ((∃ q, going (s.kernel.proc q) = true) → tok u .user false = 1) →
          Inv sh (t.setUser p u) := by
        intro u hapart hcas hone
        refine inv_stored hinv hat hcopy ht (.setUser u) rfl (by omega) (update_self ..) hwt
          (.apart hapart) hcas fun hg => ?_
        rw [hvalue,hone hg,htok,hw,h]
        exact le_refl _
      rw [if_neg (by omega)] at hs
      split at hs
      · cases hs
        exact hadded .futexWake rfl nofun fun _ => rfl
      rename_i hne
      cases hs
      refine hadded .idle rfl nofun fun ⟨q,hq⟩ => ?_
      rw [(halone.1 hu).resolve_left hne q] at hq
      cases hq
    | futexWake =>
      obtain ⟨t,ht,hs⟩ := map_eq_some_iff.mp hs
      cases hs
      refine inv_call hinv hat ht trivial ((if_pos hat).trans (if_neg (by decide))) (hw.trans h)
        .wakeCall nofun rfl ?_
      rw [htok,hw,h]
      exact le_refl _

end Running

end Instr

theorem inv_step (hinv : Inv sh s) (hfew : Few sh s op) (halone : Alone sh s op)
    (hs : step sh s op = some (s',o)) : Inv sh s' := by
  cases op with
  | call p c =>
    obtain ⟨h,hs⟩ := ite_none_right_eq_some.mp hs
    obtain ⟨hat,hu⟩ := h
    have hfits := hinv.fits p
    rw [hu,(Futex.State.at?_eq_some hat).2] at hfits
    generalize hw : s.woken p = w at hfits
    cases hfits with
    | apart h =>
      cases hs
      refine inv_setUser hinv hat (.apart ?_) ?_ (.inl ?_)
      · rw [hw,h]
        cases c <;> trivial
      · cases c <;> exact nofun
      · rw [State.tok,hu,(Futex.State.at?_eq_some hat).2,hw,h]
        exact Nat.zero_le _
  | go p =>
    obtain ⟨hat,hs⟩ := ite_none_right_eq_some.mp hs
    exact instr_inv hinv hat hfew halone hs
  | kernel fop =>
    obtain ⟨hk,hs⟩ := ite_none_right_eq_some.mp hs
    obtain ⟨t,ht,hs⟩ := map_eq_some_iff.mp hs
    obtain ⟨⟨k,fo⟩,hstep,rfl⟩ := map_eq_some_iff.mp ht
    cases hs
    exact inv_kernel hinv hk hstep

theorem tok_pos {pc : Pc} (h : 0 < tok u pc w) : Posting u pc ∨ w = true := by
  cases w with
  | true => exact .inr rfl
  | false =>
    left
    simp only [tok] at h
    split at h
    · contradiction
    · split at h <;> trivial

theorem sem_waiters_not_stranded (sh : Shared n) (v : Word) (hv : v.toNat ≤ semValueMax)
    (ops : List (Op n)) (s : State n) (outs : List (Option (Fin n × Int)))
    (hgood : Always (step sh) (fun s op => Few sh s op ∧ Alone sh s op) (start v) ops)
    (hrun : run (step sh) (start v) ops = some (s,outs)) : ¬ Stranded sh s := by
  have hinv : Inv sh s := run_keeps (fun _ _ _ _ h hg => inv_step h hg.1 hg.2)
    (inv_start sh hv) hgood hrun
  intro ⟨hpos,⟨p,_,hsleep⟩,hnobody⟩
  have hvalue : 0 < (s.value sh).toNat := by
    have := (toInt_le_zero hinv.small).not.mp (by omega)
    omega
  have htokens := hinv.enough ⟨p,by simp [going,hsleep]⟩
  have hsum : 0 < ∑ q, s.tok q := lt_of_lt_of_le hvalue htokens
  obtain ⟨q,-,hq⟩ := Finset.exists_ne_zero_of_sum_ne_zero hsum.ne'
  rcases tok_pos (pos_of_ne_zero hq) with h | h
  · exact (hnobody q).1 h
  · rw [(hnobody q).2] at h
    cases h

section Runs

instance : DecidablePred (Few sh s)
  | .go p => inferInstanceAs (Decidable (s.user p = .add → (s.value sh).toInt < semValueMax))
  | .call _ _ | .kernel _ => .isTrue trivial

instance : DecidablePred (Alone sh s)
  | .go p => inferInstanceAs (Decidable
      ((s.user p = .add → s.value sh = 0 ∨ ∀ q, going (s.kernel.proc q) = false) ∧
        ((s.user p).writes = true → ∀ q, (s.kernel.proc q).pc.got sh.word = [])))
  | .call _ _ | .kernel _ => .isTrue trivial

def shared : Shared 4 := ⟨fun _ => some,fun _ => 0,0,fun _ => rfl⟩

def sleepOps (p : Fin 4) : List (Op 4) :=
  [.call p .semWait,.go p,.go p,.kernel (.lock p),.kernel (.read p),.kernel (.read p),
    .kernel (.read p),.kernel (.read p),.kernel (.handOff p),.kernel (.unlock p),.kernel (.park p)]

theorem sem_waiters_not_stranded_one_waiter : ∃ s outs,
    run (step shared) (start 0) (sleepOps 0 ++ [.call 2 .semPost,.go 2]) = some (s,outs) ∧
      ¬ Stranded shared s := by
  have hgood : Always (step shared) (fun s op => Few shared s op ∧ Alone shared s op) (start 0)
      (sleepOps 0 ++ [.call 2 .semPost,.go 2]) := by
    decide +kernel
  exact run_shows (fun _ => True) (by decide +kernel)
    fun s outs hs _ => sem_waiters_not_stranded shared 0 (by decide) _ s outs hgood hs

def strandOps : List (Op 4) := sleepOps 0 ++ sleepOps 1 ++
    [.call 2 .semPost,.go 2,.call 3 .semPost,.go 3,.go 2,.kernel (.lock 2),.kernel (.scan 2),
      .kernel (.leave 2),.go 2,.kernel (.dispatch 0),.kernel (.lock 0),.kernel (.leave 0),.go 0,
      .go 0,.go 0]

theorem sem_post_strands_waiter : ∃ s outs, Always (step shared) (Few shared) (start 0) strandOps ∧
      run (step shared) (start 0) strandOps = some (s,outs) ∧ Stranded shared s := by
  have hfew : Always (step shared) (Few shared) (start 0) strandOps := by decide +kernel
  have hrun : ∃ s outs, run (step shared) (start 0) strandOps = some (s,outs) ∧
      (0 < (s.value shared).toInt ∧ (s.user 1 = .waiting ∧ (s.kernel.proc 1).state = .sleeping) ∧
        ∀ q, (s.user q = .idle ∨ q = 1) ∧ s.woken q = false) :=
    run_reaches (by decide +kernel)
  obtain ⟨s,outs,hs,hpos,hasleep,hnobody⟩ := hrun
  refine ⟨s,outs,hfew,hs,hpos,⟨1,hasleep⟩,fun q => ⟨?_,(hnobody q).2⟩⟩
  rcases (hnobody q).1 with h | rfl
  · rw [h]
    exact id
  · rw [hasleep.1]
    exact id

end Runs

end TinyOs.Sem
