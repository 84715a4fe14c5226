import TinyOs.Fs.Flock

namespace TinyOs.Flock

open Option State

open Function (update update_of_ne update_self)

variable {P : Type} {s s' : State P} {p q : P} {files files' : Slot → File}
  {f g i : Slot} {w w' : Want} {ip : Nat} {l : Option Lock} {pc x : Pc}

theorem conflicts_iff : conflicts files w i = true ↔ i ≠ w.file ∧ Open files i w.ip ∧
    ∃ l, (files i).flock = some l ∧ (w.lock = .ex ∨ l = .ex) := by
  unfold conflicts Open
  dsimp only
  split
  case isTrue h =>
    refine ⟨nofun,fun ⟨hne,⟨href,hip⟩,l,hl,_⟩ => ?_⟩
    rcases h with h | h | h | h
    · omega
    · exact absurd h hne
    · exact absurd hip h
    · rw [h] at hl
      exact nomatch hl
  case isFalse h =>
    simp only [not_or,not_lt,not_not] at h
    obtain ⟨href,hne,hip,hl⟩ := h
    obtain ⟨l,hl⟩ := ne_none_iff_exists'.1 hl
    split
    case isTrue hex => exact ⟨fun _ => ⟨hne,⟨href,hip⟩,l,hl,.inl hex⟩,fun _ => rfl⟩
    case isFalse hsh =>
      rw [decide_eq_true_iff]
      refine ⟨fun he => ⟨hne,⟨href,hip⟩,.ex,he,.inr rfl⟩,fun ⟨_,_,l',hl',hor⟩ => ?_⟩
      rw [hl',hor.resolve_left hsh]

def Home (files : Slot → File) (w : Want) : Prop :=
  (files w.file).ip = some w.ip ∨ (files w.file).ref = 0

def Closes (f : Slot) : Pc → Prop
  | .closing g | .closeWake g _ | .closeEnd g => g = f
  | _ => False

def Fits (files : Slot → File) : Pc → Prop
  | .scan w i => Home files w ∧ ∀ j : Slot, j.val < i → conflicts files w j = false
  | .passed w => Home files w ∧ ∀ j, conflicts files w j = false
  | .found w => Home files w ∧ Conflict files w
  | .asleep w | .woken w => Home files w
  | .closing f | .closeWake f _ | .closeEnd f => (files f).ref = 0
  | _ => True

def Sole (K : Pc → Prop) (task : P → Pc) : Prop := ∀ p, K (task p) → ∀ q, q ≠ p → ¬ K (task q)

structure Inv (s : State P) : Prop where
  exclusive : Exclusive s.files
  fits : ∀ p, Fits s.files (s.pc p)
  alone : ∀ ip, Sole (Busy ip) s.pc
  closer : ∀ f, Sole (Closes f) s.pc
  wake : NoLostWakeup s

theorem Start.inv (h : Start s) : Inv s where
  exclusive f g ip _ _ _ hf := by
    rw [h.free f] at hf
    exact nomatch hf
  fits p := by
    rw [h.idle p]
    trivial
  alone ip p hb := by
    rw [h.idle p] at hb
    exact hb.elim
  closer f p hc := by
    rw [h.idle p] at hc
    exact hc.elim
  wake p w hw := by
    rw [h.idle p] at hw
    exact nomatch hw

structure Change (s : State P) (p : P) (files' : Slot → File) (x : Pc) : Prop where
  exclusive : Exclusive files'
  own : Fits files' x
  others : ∀ q, q ≠ p → Fits files' (s.pc q)
  busy : ∀ ip, Busy ip x → Alone s p ip
  closer : ∀ f, Closes f x → ∀ q, q ≠ p → ¬ Closes f (s.pc q)
  sleeps : ∀ w, x = .asleep w → Conflict files' w
  conflict : ∀ q w, q ≠ p → s.pc q = .asleep w → Conflict s.files w →
    Conflict files' w ∨ Wakes files' w.ip x
  pending : ∀ q r w, s.pc r = .asleep w → Wakes s.files w.ip (s.pc q) →
    (q ≠ p ∧ Wakes files' w.ip (s.pc q)) ∨ Wakes files' w.ip x

theorem Fits.change (h : Fits files pc) (home : ∀ w, Home files w → Home files' w)
    (ref : ∀ f, (files f).ref = 0 → (files' f).ref = 0)
    (less : ∀ w i, Busy w.ip pc → conflicts files' w i = true → conflicts files w i = true)
    (more : ∀ w, Busy w.ip pc → Conflict files w → Conflict files' w) : Fits files' pc := by
  have hless : ∀ w i, Busy w.ip pc → conflicts files w i = false → conflicts files' w i = false := by
    intro w i hb hno
    rw [← Bool.not_eq_true] at hno ⊢
    exact fun hc => hno (less w i hb hc)
  cases pc with
  | user | waking ip => trivial
  | scan w i => exact ⟨home w h.1,fun j hj => hless w j rfl (h.2 j hj)⟩
  | passed w => exact ⟨home w h.1,fun j => hless w j rfl (h.2 j)⟩
  | found w => exact ⟨home w h.1,more w rfl h.2⟩
  | asleep w | woken w => exact home w h
  | closing f | closeWake f ip | closeEnd f => exact ref f h

structure Only (f : Slot) (files files' : Slot → File) : Prop where
  same : ∀ g, g ≠ f → files' g = files g
  ref : (files' f).ref ≤ (files f).ref
  ip : (files' f).ip = (files f).ip ∨ (files' f).ref = 0

namespace Only

theorem home (ho : Only f files files') (h : Home files w) : Home files' w := by
  by_cases hw : w.file = f
  · subst hw
    have href := ho.ref
    rcases ho.ip with hip | hip
    · exact h.imp (fun h => hip.trans h) fun h => by omega
    · exact .inr hip
  · unfold Home at *
    rwa [ho.same _ hw]

theorem ref_zero (ho : Only f files files') (h : (files g).ref = 0) : (files' g).ref = 0 := by
  by_cases hg : g = f
  · subst hg
    have href := ho.ref
    omega
  · rwa [ho.same g hg]

theorem open_of (ho : Only f files files') (h : Open files' g ip) : Open files g ip := by
  by_cases hg : g = f
  · subst hg
    obtain ⟨h1,h2⟩ := h
    refine ⟨h1.trans ho.ref,?_⟩
    rcases ho.ip with hip | hip
    · rwa [hip] at h2
    · omega
  · unfold Open at *
    rwa [ho.same g hg] at h

theorem conflict (ho : Only f files files') (hc : Conflict files w) :
    Conflict files' w ∨ conflicts files w f = true := by
  obtain ⟨i,hi⟩ := hc
  by_cases hif : i = f
  · exact .inr (hif ▸ hi)
  refine .inl ⟨i,?_⟩
  unfold conflicts at *
  rwa [ho.same i hif]

end Only

structure Less (f : Slot) (files files' : Slot → File) : Prop extends Only f files files' where
  lock : (files' f).flock = (files f).flock ∨ (files' f).flock = none

namespace Less

variable (hl : Less f files files')

include hl

theorem lock_of {l : Lock} (h : (files' g).flock = some l) : (files g).flock = some l := by
  by_cases hg : g = f
  · subst hg
    rcases hl.lock with he | he
    · rwa [he] at h
    · rw [he] at h
      exact nomatch h
  · rwa [hl.same g hg] at h

theorem conflicts_of (h : conflicts files' w i = true) : conflicts files w i = true := by
  obtain ⟨hne,hopen,l,hlock,hor⟩ := conflicts_iff.1 h
  exact conflicts_iff.2 ⟨hne,hl.open_of hopen,l,hl.lock_of hlock,hor⟩

theorem exclusive (h : Exclusive files) : Exclusive files' := by
  intro a b ip hne ha hb hex
  have hnone := h a b ip hne (hl.open_of ha) (hl.open_of hb) (hl.lock_of hex)
  cases hb' : (files' b).flock with
  | none => rfl
  | some l =>
    rw [hl.lock_of hb'] at hnone
    exact nomatch hnone

end Less

theorem Wakes.change {Q : Prop} (h : Wakes files ip pc)
    (hg : ∀ g, pc = .closing g → Wakes files ip (.closing g) → Wakes files' ip (.closing g) ∨ Q) :
    Wakes files' ip pc ∨ Q := by
  cases pc with
  | closing g => exact hg g rfl h
  | waking | closeWake => exact .inl h
  | user | scan | passed | found | asleep | woken | closeEnd => exact h.elim

structure Release (s : State P) (p : P) (f : Slot) (files' : Slot → File) (x : Pc) : Prop where
  less : Less f s.files files'
  held : ∀ ip, Open s.files f ip → (s.files f).flock ≠ none → Alone s p ip ∧ Wakes files' ip x
  other : ∀ q ip, q ≠ p → s.pc q = .closing f → Wakes s.files ip (.closing f) → Wakes files' ip x
  mine : ∀ ip, Wakes s.files ip (s.pc p) → Wakes files' ip x

theorem Release.change (hr : Release s p f files' x) (hi : Inv s) (own : Fits files' x)
    (busy : ∀ ip, ¬ Busy ip x) (closer : ∀ f, Closes f x → ∀ q, q ≠ p → ¬ Closes f (s.pc q))
    (sleeps : ∀ w, x ≠ .asleep w) : Change s p files' x := by
  have hl := hr.less
  have hheld : ∀ {w}, conflicts s.files w f = true → Alone s p w.ip ∧ Wakes files' w.ip x := by
    intro w hc
    obtain ⟨-,hopen,l,hlock,-⟩ := conflicts_iff.1 hc
    exact hr.held w.ip hopen (by rw [hlock]; exact some_ne_none l)
  refine ⟨hl.exclusive hi.exclusive,own,fun q hq => ?_,fun ip hb => absurd hb (busy ip),closer,
    fun w hw => absurd hw (sleeps w),fun q w hq hw hc => ?_,fun q _ w _ hq => ?_⟩
  · refine (hi.fits q).change (fun w => hl.home) (fun g => hl.ref_zero)
      (fun w i _ => hl.conflicts_of) fun w hb hc => ?_
    exact (hl.conflict hc).resolve_right fun hf => (hheld hf).1 q hq hb
  · exact (hl.conflict hc).imp id fun hf => (hheld hf).2
  by_cases hqp : q = p
  · subst hqp
    exact .inr (hr.mine w.ip hq)
  refine (hq.change (Q := Wakes files' w.ip x) fun g hpc hw => ?_).imp (fun h => ⟨hqp,h⟩) id
  by_cases hg : g = f
  · subst hg
    exact .inr (hr.other q w.ip hqp hpc hw)
  left
  change (files' g).flock ≠ none ∧ (files' g).ip = some w.ip
  rw [hl.same g hg]
  exact hw

variable [DecidableEq P]

theorem Sole.goto {K : Pc → Prop} (h : Sole K s.pc) (hx : K x → ∀ q, q ≠ p → ¬ K (s.pc q)) :
    Sole K (s.goto p x).pc := by
  intro q hq r hr
  simp only [State.goto] at hq ⊢
  by_cases hqp : q = p
  · subst hqp
    rw [update_self] at hq
    rw [update_of_ne hr]
    exact hx hq r hr
  rw [update_of_ne hqp] at hq
  by_cases hrp : r = p
  · subst hrp
    rw [update_self]
    exact fun hk => hx hk q hqp hq
  · rw [update_of_ne hrp]
    exact h q hq r hr

theorem Change.inv (files' : Slot → File) (hc : Change s p files' x) (hi : Inv s) :
    Inv (State.goto { s with files := files' } p x) := by
  have hself : (goto { s with files := files' } p x).pc p = x := update_self ..
  have hother : ∀ q, q ≠ p → (goto { s with files := files' } p x).pc q = s.pc q :=
    fun q hq => update_of_ne hq ..
  refine ⟨hc.exclusive,fun q => ?_,fun ip => (hi.alone ip).goto (hc.busy ip),
    fun f => (hi.closer f).goto (hc.closer f),fun q w hw => ?_⟩
  · by_cases hq : q = p
    · subst hq
      rw [hself]
      exact hc.own
    · rw [hother q hq]
      exact hc.others q hq
  by_cases hq : q = p
  · subst hq
    rw [hself] at hw
    exact .inl (hc.sleeps w hw)
  rw [hother q hq] at hw
  rcases hi.wake q w hw with hconf | ⟨r,hr⟩
  · exact (hc.conflict q w hq hw hconf).imp id fun hx => ⟨p,by rwa [hself]⟩
  rcases hc.pending r q w hw hr with ⟨hne,hr'⟩ | hx
  · exact .inr ⟨r,by rwa [hother r hne]⟩
  · exact .inr ⟨p,by rwa [hself]⟩

theorem Inv.move (hi : Inv s) (own : Fits s.files x) (busy : ∀ ip, Busy ip x → Alone s p ip)
    (closer : ∀ f, Closes f x → ∀ q, q ≠ p → ¬ Closes f (s.pc q))
    (sleeps : ∀ w, x = .asleep w → Conflict s.files w)
    (pending : ∀ r w, s.pc r = .asleep w → Wakes s.files w.ip (s.pc p) → Wakes s.files w.ip x) :
    Inv (s.goto p x) := by
  refine Change.inv s.files ⟨hi.exclusive,own,fun q _ => hi.fits q,busy,closer,sleeps,
    fun _ _ _ _ h => .inl h,fun q r w hr hq => ?_⟩ hi
  by_cases hqp : q = p
  · subst hqp
    exact .inr (pending r w hr hq)
  · exact .inl ⟨hqp,hq⟩

theorem only_setLock (files : Slot → File) (f : Slot) (l : Option Lock) :
    Only f files (setLock files f l) where
  same g hg := update_of_ne hg ..
  ref := by rw [setLock,update_self]
  ip := .inl (by rw [setLock,update_self])

theorem setLock_flock (files : Slot → File) (f : Slot) (l : Option Lock) :
    (setLock files f l f).flock = l := by
  rw [setLock,update_self]

theorem less_setLock (files : Slot → File) (f : Slot) : Less f files (setLock files f none) where
  toOnly := only_setLock files f none
  lock := .inr (setLock_flock files f none)

theorem Inv.unlock (hi : Inv s) (hpc : s.pc p = .user) (hip : (s.files f).ip = some ip)
    (ha : Alone s p ip) :
    Inv (State.goto { s with files := setLock s.files f none } p (.waking ip)) := by
  have hsame : ∀ {ip'}, (s.files f).ip = some ip' → ip = ip' := fun h =>
    some.inj (hip.symm.trans h)
  refine Change.inv _ (Release.change (f := f) ⟨less_setLock _ _,fun ip' ho _ => ?_,
    fun q ip' _ _ hw => hsame hw.2,fun ip' hw => ?_⟩ hi trivial (fun _ h => h) (fun _ h => h.elim)
    fun _ h => (nomatch h)) hi
  · obtain rfl := hsame ho.2
    exact ⟨ha,rfl⟩
  · rw [hpc] at hw
    exact hw.elim

theorem Inv.flock {op : Nat} (hi : Inv s) (hpc : s.pc p = .user) (hg : Ordered s (.flock p f op)) :
    Inv (s.fileflock p f op).1 := by
  unfold fileflock
  split
  case h_1 => exact hi
  case h_2 ip hip =>
    split
    case isTrue => exact hi
    case isFalse =>
      split
      case h_1 => exact hi
      case h_2 hcmd =>
        split
        case isTrue => exact hi
        case isFalse hlock => exact hi.unlock hpc hip (hg ip hip none hcmd fun _ => hlock)
      case h_3 l hcmd =>
        have ha : Alone s p ip := hg ip hip (some l) hcmd nofun
        refine hi.move ⟨.inl hip,fun j hj => absurd hj (Nat.not_lt_zero _)⟩ (fun ip' hb => ?_)
          (fun _ h => h.elim) (fun _ h => (nomatch h)) fun _ _ _ hw => ?_
        · exact hb ▸ ha
        · rw [hpc] at hw
          exact hw.elim

def dropRef (files : Slot → File) (f : Slot) : Slot → File :=
  update files f { files f with ref := (files f).ref - 1 }

theorem less_dropRef (files : Slot → File) (f : Slot) : Less f files (dropRef files f) where
  same g hg := update_of_ne hg ..
  ref := by
    rw [dropRef,update_self]
    exact Nat.sub_le _ _
  ip := .inl (by rw [dropRef,update_self])
  lock := .inl (by rw [dropRef,update_self])

theorem dropRef_self (files : Slot → File) (f : Slot) :
    (dropRef files f f).ref = (files f).ref - 1 ∧ (dropRef files f f).flock = (files f).flock ∧
      (dropRef files f f).ip = (files f).ip := by
  rw [dropRef,update_self]
  exact ⟨rfl,rfl,rfl⟩

theorem conflict_dropRef (href : 1 < (files f).ref) (h : Conflict files w) :
    Conflict (dropRef files f) w := by
  refine ((less_dropRef files f).conflict h).elim id fun hf => ⟨f,?_⟩
  obtain ⟨hne,⟨-,hip⟩,l,hlock,hor⟩ := conflicts_iff.1 hf
  obtain ⟨h1,h2,h3⟩ := dropRef_self files f
  exact conflicts_iff.2 ⟨hne,⟨by omega,h3.trans hip⟩,l,h2.trans hlock,hor⟩

omit [DecidableEq P] in
theorem Inv.dropRef (hi : Inv s) (href : 1 < (s.files f).ref) :
    Inv { s with files := dropRef s.files f } := by
  have hl := less_dropRef s.files f
  refine ⟨hl.exclusive hi.exclusive,fun q => ?_,hi.alone,hi.closer,fun q w hw => ?_⟩
  · exact (hi.fits q).change (fun w => hl.home) (fun g => hl.ref_zero) (fun w i _ => hl.conflicts_of)
      fun w _ => conflict_dropRef href
  rcases hi.wake q w hw with hc | ⟨r,hr⟩
  · exact .inl (conflict_dropRef href hc)
  refine .inr ⟨r,(hr.change (Q := False) fun g _ hr => .inl ?_).resolve_right id⟩
  change (Flock.dropRef s.files f g).flock ≠ none ∧ (Flock.dropRef s.files f g).ip = some w.ip
  by_cases hg : g = f
  · subst hg
    obtain ⟨-,h2,h3⟩ := dropRef_self s.files g
    rw [h2,h3]
    exact hr
  · rw [hl.same g hg]
    exact hr

theorem Inv.close {out : Option Int} (hi : Inv s) (hpc : s.pc p = .user)
    (hg : Ordered s (.close p f)) (hs : s.fileclose p f = some (s',out)) : Inv s' := by
  unfold fileclose at hs
  dsimp only at hs
  split at hs
  case isTrue => exact nomatch hs
  case isFalse hpos =>
    split at hs
    case isTrue hmany =>
      cases hs
      exact hi.dropRef hmany
    case isFalse hlast =>
      cases hs
      have hone : (s.files f).ref = 1 := by omega
      obtain ⟨h1,h2,h3⟩ := dropRef_self s.files f
      have hno : ∀ q, ¬ Closes f (s.pc q) := by
        intro q hq
        have hfits := hi.fits q
        cases hpc' : s.pc q with
        | closing g | closeWake g ip | closeEnd g =>
          rw [hpc'] at hq hfits
          obtain rfl : g = f := hq
          have hzero : (s.files g).ref = 0 := hfits
          omega
        | user | scan | passed | found | asleep | woken | waking =>
          rw [hpc'] at hq
          exact hq
      refine Change.inv (Flock.dropRef s.files f) (Release.change (f := f)
        ⟨less_dropRef _ _,fun ip ho hlock => ?_,fun q ip _ hq _ => ?_,fun ip hw => ?_⟩ hi ?_
        (fun _ h => h) (fun g hgf q _ hq => ?_) fun _ h => (nomatch h)) hi
      · refine ⟨hg ip ho.2 hone hlock,?_⟩
        change (Flock.dropRef s.files f f).flock ≠ none ∧ (Flock.dropRef s.files f f).ip = some ip
        rw [h2,h3]
        exact ⟨hlock,ho.2⟩
      · refine absurd ?_ (hno q)
        rw [hq]
        exact rfl
      · rw [hpc] at hw
        exact hw.elim
      · change (Flock.dropRef s.files f f).ref = 0
        omega
      · obtain rfl : f = g := hgf
        exact hno q hq

theorem conflicts_setLock (h : Home files w) (hne : w.ip ≠ w'.ip) (l : Option Lock) (i : Slot) :
    conflicts (setLock files w.file l) w' i = conflicts files w' i := by
  by_cases hi : i = w.file
  · subst hi
    have hclosed : ∀ files', Only w.file files files' → conflicts files' w' w.file = false := by
      intro files' ho
      rw [← Bool.not_eq_true]
      intro hc
      obtain ⟨-,hopen,-⟩ := conflicts_iff.1 hc
      obtain ⟨href,hip⟩ := ho.open_of hopen
      rcases h with h | h
      · exact hne (some.inj (h.symm.trans hip))
      · omega
    rw [hclosed _ (only_setLock files w.file l),hclosed files ⟨fun _ _ => rfl,le_rfl,.inl rfl⟩]
  · unfold conflicts
    rw [(only_setLock files w.file l).same i hi]

theorem exclusive_setLock (h : Exclusive files) (hw : Home files w)
    (hno : ∀ j, conflicts files w j = false) :
    Exclusive (setLock files w.file (some w.lock)) := by
  have ho := only_setLock files w.file (some w.lock)
  have hself := setLock_flock files w.file (some w.lock)
  have hip : ∀ {ip}, Open files w.file ip → ip = w.ip := by
    rintro ip ⟨href,hip⟩
    rcases hw with hw | hw
    · exact some.inj (hip.symm.trans hw)
    · omega
  intro a b ip hne ha hb hex
  have ha' := ho.open_of ha
  have hb' := ho.open_of hb
  by_cases haw : a = w.file
  · subst haw
    obtain rfl := hip ha'
    rw [hself] at hex
    rw [ho.same b hne.symm]
    cases hl : (files b).flock with
    | none => rfl
    | some l =>
      have hc := conflicts_iff.2 ⟨hne.symm,hb',l,hl,.inl (some.inj hex)⟩
      rw [hno b] at hc
      exact nomatch hc
  · rw [ho.same a haw] at hex
    by_cases hbw : b = w.file
    · subst hbw
      obtain rfl := hip hb'
      have hc := conflicts_iff.2 ⟨haw,ha',.ex,hex,.inr rfl⟩
      rw [hno a] at hc
      exact nomatch hc
    · rw [ho.same b hbw]
      exact h a b ip hne ha' hb' hex

theorem Lock.eq_sh {l : Lock} (h : l ≠ .ex) : l = .sh := by
  cases l with
  | sh => rfl
  | ex => exact absurd rfl h

theorem Inv.assign (hi : Inv s) (hpc : s.pc p = .passed w)
    (hg : w.lock = .sh → (s.files w.file).flock = some .ex → ∀ q, ¬ WaitsSh w.ip (s.pc q)) :
    Inv (State.goto { s with files := setLock s.files w.file (some w.lock) } p .user) := by
  have hfits := hi.fits p
  rw [hpc] at hfits
  obtain ⟨hhome,hno⟩ := hfits
  have ho := only_setLock s.files w.file (some w.lock)
  have halone : Alone s p w.ip := hi.alone w.ip p (by rw [hpc]; exact rfl)
  have hself := setLock_flock s.files w.file (some w.lock)
  refine Change.inv _ ⟨exclusive_setLock hi.exclusive hhome hno,trivial,fun q hq => ?_,
    fun _ h => h.elim,fun _ h => h.elim,fun _ h => (nomatch h),fun q w' _ hw' hc => ?_,
    fun q _ w' _ hq => ?_⟩ hi
  · have hother : ∀ w' : Want, Busy w'.ip (s.pc q) → w.ip ≠ w'.ip := fun w' hb he =>
      halone q hq (he ▸ hb)
    refine (hi.fits q).change (fun _ => ho.home) (fun _ => ho.ref_zero) (fun w' i hb => ?_)
      fun w' hb hc => ?_
    · rw [conflicts_setLock hhome (hother w' hb)]
      exact id
    · obtain ⟨i,hi⟩ := hc
      exact ⟨i,by rwa [conflicts_setLock hhome (hother w' hb)]⟩
  · left
    refine (ho.conflict hc).elim id fun hf => ⟨w.file,?_⟩
    obtain ⟨hne,hopen,l,hl,hor⟩ := conflicts_iff.1 hf
    have hopen' : Open (setLock s.files w.file (some w.lock)) w.file w'.ip := by
      unfold Open
      rw [setLock,update_self]
      exact hopen
    refine conflicts_iff.2 ⟨hne,hopen',w.lock,hself,?_⟩
    by_contra hsh
    obtain ⟨hsh',hsh⟩ := not_or.1 hsh
    have hip : w'.ip = w.ip := by
      rcases hhome with hh | hh
      · exact some.inj (hopen.2.symm.trans hh)
      · have := hopen.1
        omega
    refine hg (Lock.eq_sh hsh) (by rw [hl,hor.resolve_left hsh']) q ?_
    rw [hw']
    exact ⟨hip,Lock.eq_sh hsh'⟩
  · have hqp : q ≠ p := by
      rintro rfl
      rw [hpc] at hq
      exact hq
    refine .inl ⟨hqp,(hq.change (Q := False) fun g _ hw => .inl ?_).resolve_right id⟩
    change (setLock s.files w.file (some w.lock) g).flock ≠ none ∧
      (setLock s.files w.file (some w.lock) g).ip = some w'.ip
    by_cases hg : g = w.file
    · rw [hg,setLock,update_self]
      exact ⟨some_ne_none _,hg ▸ hw.2⟩
    · rw [ho.same g hg]
      exact hw

end TinyOs.Flock
