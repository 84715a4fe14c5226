import TinyOs.Ramfs.Slots

namespace TinyOs.Create

open List State
open Function (update update_apply update_of_ne update_self)

variable {P Name : Type} [DecidableEq Name] {s s' s₀ t : State P Name} {p q : P}
  {call : P → Call Name} {i : Slot} {pc : Pc Name} {n : Name}

theorem dLookup_none : s.dLookup n = none ↔ n ∉ names s := by
  unfold dLookup names
  rw [lookup_eq_none_iff,mem_map]
  constructor
  · rintro h ⟨x,hx,rfl⟩
    exact absurd (h x hx) (by simp)
  · intro h x hx
    rw [bne_iff_ne]
    rintro rfl
    exact h ⟨x,hx,rfl⟩

theorem dLookup_isSome : (s.dLookup n).isSome ↔ n ∈ names s := by
  rw [← not_iff_not,← dLookup_none,Option.not_isSome_iff_eq_none]

theorem linked_of_dLookup (h : s.dLookup n = some i) : Linked s i := by
  obtain ⟨l,r,heq,-⟩ := lookup_eq_some_iff.mp h
  exact ⟨n,by rw [heq]; exact mem_append_right _ mem_cons_self⟩

theorem namei_linked (h₀ : Start call s₀) {old : Source Name} (hc : call p = .link old n)
    (hold : s.namei old = some i) : Used s₀ i ∨ Linked s i := by
  cases old with
  | name m => exact .inr (linked_of_dLookup hold)
  | inode j =>
    cases hold
    exact .inl (h₀.source p i n hc)

theorem Has.enter {j : Slot} (h : Has call s₀ s q j) (hinodes : s'.inodes = s.inodes)
    (hdents : s'.dents = (n,i) :: s.dents) (hn : n ∉ names s) : Has call s₀ s' q j := by
  refine ⟨by rw [hinodes]; exact h.mine,fun hm => ?_,fun old m hc => ?_⟩
  · obtain ⟨hl,hdir⟩ := h.links hm
    refine ⟨hl.imp_right fun hl => ?_,by rwa [hinodes]⟩
    obtain ⟨m,hm⟩ := hl
    exact ⟨m,by rw [hdents]; exact mem_cons_of_mem _ hm⟩
  have hold := h.source old m hc
  cases old with
  | inode k => exact hold
  | name m =>
    have hne : (m == n) = false := by
      rw [beq_eq_false_iff_ne]
      rintro rfl
      rw [namei,dLookup_none.mpr hn] at hold
      cases hold
    simp only [namei,dLookup,hdents,lookup_cons,hne]
    exact hold

omit [DecidableEq Name] in
theorem linked_enter (hdents : s'.dents = (n,i) :: s.dents) (j : Slot) :
    Linked s' j ↔ j = i ∨ Linked s j := by
  unfold Linked
  rw [hdents]
  constructor
  · rintro ⟨m,hm⟩
    rcases mem_cons.mp hm with heq | hm
    · exact .inl (Prod.mk.inj heq).2
    · exact .inr ⟨m,hm⟩
  · rintro (rfl | ⟨m,hm⟩)
    · exact ⟨n,mem_cons_self⟩
    · exact ⟨m,mem_cons_of_mem _ hm⟩

theorem Fits.enter (h : Fits call s₀ s q pc) (hinodes : s'.inodes = s.inodes)
    (hdents : s'.dents = (n,i) :: s.dents) (hn : n ∉ names s) (hout : ¬ pc.Inside)
    (hslot : (call q).Makes → pc.Open → pc.slot ≠ some i) : Fits call s₀ s' q pc := by
  have hhas : ∀ {j}, Has call s₀ s q j → Has call s₀ s' q j := fun h => h.enter hinodes hdents hn
  have hfull : ∀ {j}, Full (call q) s j → Full (call q) s' j := fun hd => by rwa [Full,hinodes]
  have hmem : ∀ {x}, x ∈ s.dents → x ∈ s'.dents := fun hx => hdents ▸ mem_cons_of_mem _ hx
  have hapart : ∀ {j}, pc.Open → pc.slot = some j → Apart (call q) s j → Apart (call q) s' j := by
    intro j ho hj ha hm hl
    rcases (linked_enter hdents j).mp hl with rfl | hl
    · exact hslot hm ho hj
    · exact ha hm hl
  cases h with
  | start => exact .start
  | choosing hm => exact .choosing hm
  | claiming hm hi => exact .claiming hm (by rwa [Used,hinodes])
  | filling hm h ha => exact .filling hm (hhas h) (hapart trivial rfl ha)
  | adding h ha hd => exact .adding (hhas h) (hapart trivial rfl ha) (hfull hd)
  | dentry | linking | storing => exact (hout trivial).elim
  | undo h ha => exact .undo (hhas h) (hapart trivial rfl ha)
  | putting h hd he => exact .putting (hhas h) (hfull hd) (hmem he)
  | failed => exact .failed
  | done h hd he => exact .done (hhas h) (hfull hd) (hmem he)

variable [DecidableEq P]

def Serial (call : P → Call Name) (s : State P Name) (op : P × Bool) : Prop :=
  match s.pc op.1 with
  | .choosing => (∀ q, ¬ (s.pc q).Claims) ∧
      ((∃ i, ¬ Used s i) ∨ ∀ q, (call q).Makes → ¬ (s.pc q).Open)
  | .adding _ => ∀ q, ¬ (s.pc q).Inside
  | _ => True

variable [Fintype P] {mem : Bool} {c : Pc Name}

theorem Inv.stored (h : Inv call s₀ s) (hpc : s.pc p = .storing i s.dents) :
    Inv call s₀ ({ s with dents := ((call p).name,i) :: s.dents }.at_ p (.putting i)) := by
  have hi : (s.pc p).slot = some i := by rw [hpc]; rfl
  have hin : (s.pc p).Inside := by rw [hpc]; trivial
  have hf := h.fits p
  rw [hpc] at hf
  cases hf with | storing hhas _ hd hnew =>
  generalize ht : ({ s with dents := ((call p).name,i) :: s.dents }.at_ p (.putting i)) = t
  have hinodes : t.inodes = s.inodes := ht ▸ rfl
  have hdents : t.dents = ((call p).name,i) :: s.dents := ht ▸ rfl
  have hpcs : t.pc = update s.pc p (.putting i) := ht ▸ rfl
  have hp : t.pc p = .putting i := by rw [hpcs,update_self]
  have hof : ∀ q, q ≠ p → t.pc q = s.pc q := fun q hq => by rw [hpcs,update_of_ne hq]
  have hslots : ∀ q, (t.pc q).slot = (s.pc q).slot := by
    rw [hpcs]
    exact (Function.forall_update_iff s.pc fun q c => c.slot = (s.pc q).slot).mpr
      ⟨hi.symm,fun _ _ => rfl⟩
  have hlinked := linked_enter hdents
  refine ⟨by simp only [Used,hinodes]; exact h.free,fun j => ?_,
    by rw [hdents]; exact h.grows.trans (suffix_cons _ _),by rw [hinodes]; exact h.old,
    fun j hj => ?_,fun j hj => ?_,by rw [names,hdents]; exact nodup_cons.mpr ⟨hnew,h.nodup⟩,
    fun q => ?_,unique_moved hpcs False.elim h.claimer,unique_moved hpcs False.elim h.inside⟩
  · have hsum := sum_holds call hpcs j
    rw [hpc,holds_slot (i := i) rfl,holds_slot (i := i) rfl] at hsum
    have hrefs := h.refs j
    have hcount : entries t j = entries s j + if i = j then 1 else 0 := by
      rw [entries,hdents,countP_cons]
      simp only [decide_eq_true_eq]
      rfl
    simp only [Pc.refs] at hsum
    rw [hinodes,hcount]
    split at hsum <;> rename_i hj
    · rw [if_pos hj]
      omega
    · rw [if_neg hj]
      omega
  · rw [Used,hinodes] at hj
    rcases h.cover j hj with hu | hl | ⟨q,hm,ho,hq⟩
    · exact .inl hu
    · exact .inr (.inl ((hlinked j).mpr (.inr hl)))
    by_cases hqp : q = p
    · rw [hqp,hi] at hq
      cases hq
      exact .inr (.inl ((hlinked i).mpr (.inl rfl)))
    · exact .inr (.inr ⟨q,hm,by rwa [hof q hqp],by rwa [hof q hqp]⟩)
  · simp only [hslots]
    rcases (hlinked j).mp hj with rfl | hl
    · by_cases hmp : (call p).Makes
      · exact .inr ⟨p,hmp,hi⟩
      · exact (hhas.links hmp).1.elim .inl (h.linked j)
    · exact h.linked j hl
  · by_cases hq : q = p
    · rw [hq,hp]
      exact .putting (hhas.enter hinodes hdents hnew) (by rwa [Full,hinodes])
        (hdents ▸ mem_cons_self)
    · rw [hof q hq]
      refine (h.fits q).enter hinodes hdents hnew (fun hin' => hq (h.inside q p hin' hin)) ?_
      -- An inode that `q` made and did not enter yet is not the one that `p` enters.
      exact fun hm ho hj => h.alone hm ho hj (Ne.symm hq) hi

theorem Inv.stores {ip : Inode P} (h : Inv call s₀ s) (hold : ¬ Used s₀ i) (hl : ¬ Linked s i)
    (halone : ∀ q, q ≠ p → (s.pc q).slot ≠ some i)
    (hslot : ∀ j, (s.pc p).slot = some j ∨ pc.slot = some j → i = j)
    (hclaims : ip.type = none ∨ Used s i ∨ (s.pc p).Claims) (hfree : ip.type = none → ip.ref = 0)
    (hcover : ip.type = none ∨ (call p).Makes ∧ pc.Open ∧ pc.slot = some i)
    (hrefs : ip.ref + holds (call p) (s.pc p) i = (s.inodes i).ref + holds (call p) pc i)
    (hown : Fits call s₀ ((s.store i ip).at_ p pc) p pc) (hclaimer : ¬ pc.Claims)
    (hinside : ¬ pc.Inside) : Inv call s₀ ((s.store i ip).at_ p pc) := by
  have hself : ((s.store i ip).at_ p pc).inodes i = ip := update_self ..
  have hof : ∀ j, j ≠ i → ((s.store i ip).at_ p pc).inodes j = s.inodes j :=
    fun j hj => update_of_ne hj ..
  have hsame : ∀ j, j ≠ i → (((s.store i ip).at_ p pc).inodes j).Same (s.inodes j) :=
    fun j hj => hof j hj ▸ ⟨rfl,rfl,rfl⟩
  refine h.moved rfl rfl (fun j hj => hsame j fun heq => hold (heq ▸ hj))
    (fun q j hq hj => hsame j fun heq => halone q hq (heq ▸ hj)) (fun q j hq hc hu => ?_)
    (fun j hj => ?_) (fun j => ?_) (fun j hj => ?_) (fun j _ hlj hj => ?_) hown
    (fun hc => (hclaimer hc).elim) fun hi => (hinside hi).elim
  · rcases eq_or_ne j i with rfl | hji
    · rw [Used,hself] at hu
      rcases hclaims with hnone | hused | hp
      · exact (hu hnone).elim
      · exact hused
      · exact (hq (h.claimer q p (by rw [hc]; trivial) hp)).elim
    · rwa [Used,hof j hji] at hu
  · rcases eq_or_ne j i with rfl | hji
    · rw [Used,hself] at hj
      rw [hself]
      exact hfree (not_not.mp hj)
    · rw [Used,hof j hji] at hj
      rw [hof j hji]
      exact h.free j hj
  · rcases eq_or_ne j i with rfl | hji
    · rwa [hself]
    · rw [hof j hji,holds,holds,if_neg fun hj => hji (hslot j (.inl hj)).symm,
        if_neg fun hj => hji (hslot j (.inr hj)).symm]
  · rcases eq_or_ne j i with rfl | hji
    · rw [Used,hself] at hj
      exact .inr (hcover.resolve_left hj)
    · rw [Used,hof j hji] at hj
      exact .inl ⟨hj,fun _ _ hp => absurd (hslot j (.inl hp)).symm hji⟩
  · cases hslot j (.inl hj)
    exact absurd hlj hl

theorem Inv.claimed (h : Inv call s₀ s) (h₀ : Start call s₀) (hpc : s.pc p = .claiming i)
    (hnew : pc = .filling i ∨ (call p).data = none ∧ pc = .adding i) :
    Inv call s₀ ((s.store i ⟨(call p).type,1,none,some p⟩).at_ p pc) := by
  have hf := h.fits p
  rw [hpc] at hf
  cases hf with | claiming hm hi =>
  obtain ⟨hold,hl⟩ := h.unlinked_of_free h₀ hi
  have hself : ((s.store i ⟨(call p).type,1,none,some p⟩).at_ p pc).inodes i =
      ⟨(call p).type,1,none,some p⟩ := update_self ..
  have hhas : Has call s₀ ((s.store i ⟨(call p).type,1,none,some p⟩).at_ p pc) p i :=
    .make hm (by rw [hself]; exact ⟨hold,rfl,rfl⟩)
  have hown : Fits call s₀ ((s.store i ⟨(call p).type,1,none,some p⟩).at_ p pc) p pc ∧
      pc.slot = some i ∧ pc.Open ∧ pc.refs (call p) = 1 ∧ ¬ pc.Claims ∧ ¬ pc.Inside := by
    rcases hnew with rfl | ⟨hd,rfl⟩
    · exact ⟨.filling hm hhas fun _ => hl,rfl,trivial,rfl,id,id⟩
    · exact ⟨.adding hhas (fun _ => hl) fun _ => by rw [hself,hd],rfl,trivial,rfl,id,id⟩
  obtain ⟨hfits,hslot,hopen,hone,hclaim,hin⟩ := hown
  refine h.stores hold hl (fun q _ hq => hi (h.used_of_slot h₀ hq)) (fun j hj => ?_)
    (.inr (.inr (by rw [hpc]; trivial))) (fun hnone => (hm hnone).elim) (.inr ⟨hm,hopen,hslot⟩) ?_
    hfits hclaim hin
  · rw [hpc,hslot] at hj
    exact Option.some.inj (hj.resolve_left nofun)
  · rw [hpc,holds_none rfl,holds_slot hslot,hone,if_pos rfl,h.free i hi]

theorem Inv.filled (h : Inv call s₀ s) (h₀ : Start call s₀) (hpc : s.pc p = .filling i) :
    Inv call s₀ ((s.store i { s.inodes i with data := (call p).data }).at_ p (.adding i)) := by
  have hi : (s.pc p).slot = some i := by rw [hpc]; rfl
  have ho : (s.pc p).Open := by rw [hpc]; trivial
  have hused := h.used_of_slot h₀ hi
  have hf := h.fits p
  rw [hpc] at hf
  cases hf with | filling hm hhas ha =>
  have hself : ((s.store i { s.inodes i with data := (call p).data }).at_ p (.adding i)).inodes i =
      { s.inodes i with data := (call p).data } := update_self ..
  refine h.stores (hhas.mine hm).1 (ha hm) (fun q => h.alone hm ho hi) (fun j hj => ?_)
    (.inr (.inl hused)) (fun hnone => (hused hnone).elim) (.inr ⟨hm,trivial,rfl⟩)
    (by rw [hpc]; rfl) (.adding (.make hm ?_) ha fun _ => by rw [hself]) id id
  · rw [hi] at hj
    exact Option.some.inj (hj.elim id id)
  · rw [hself]
    exact hhas.mine hm

theorem Inv.evicted (h : Inv call s₀ s) (h₀ : Start call s₀)
    (hm : (call p).Makes) (hpc : s.pc p = .undo i) (hput : s.iput i = some t) :
    Inv call s₀ (t.at_ p (.done none)) := by
  have hi : (s.pc p).slot = some i := by rw [hpc]; rfl
  have ho : (s.pc p).Open := by rw [hpc]; trivial
  have hone : (s.pc p).refs (call p) = 1 := by rw [hpc]; rfl
  have href := (h.ref_mine h₀ hm ho hi).trans hone
  unfold iput at hput
  rw [if_neg (by omega),if_pos href] at hput
  cases hput
  refine h.stores ((h.has hi).mine hm).1 (h.apart ho hi hm) (fun q => h.alone hm ho hi)
    (fun j hj => ?_) (.inl rfl) (fun _ => rfl) (.inl rfl) ?_ .failed id id
  · rw [hi] at hj
    exact Option.some.inj (hj.resolve_right nofun)
  · rw [holds_slot hi,hone,holds_none rfl,if_pos rfl,href]
    rfl

theorem Inv.put {r : Option Slot} (h : Inv call s₀ s) (h₀ : Start call s₀)
    (hi : (s.pc p).slot = some i) (hone : (s.pc p).refs (call p) = 1)
    (hl : Used s₀ i ∨ Linked s i) (hput : s.iput i = some t)
    (hr : (call p).Makes → r = some i ∧ ¬ (s.pc p).Open)
    (hzero : ∀ j, holds (call p) (.done r) j = 0) (hown : Fits call s₀ s p (.done r)) :
    Inv call s₀ (t.at_ p (.done r)) := by
  have href := h.ref_held h₀ hi hone hl
  obtain ⟨htpc,hdents,hof⟩ := iput_shared href hput
  have hnew := iput_refs href hput hi hone hzero
  refine h.keep (congrArg (update · p _) htpc) hdents (fun j => ?_) (fun j hj => ?_) hnew
    (fun hm => ⟨(hr hm).1.trans hi.symm,fun ho => ((hr hm).2 ho).elim⟩) hown False.elim False.elim
  · change (t.inodes j).Same _
    rw [hof]
    exact ⟨rfl,rfl,rfl⟩
  · change (t.inodes j).ref = 0
    simp only [hof,h.free j hj,Nat.zero_sub]

theorem Inv.dup (h : Inv call s₀ s) (hi : Used s i)
    (hrefs : ∀ j, holds (call p) pc j = holds (call p) (s.pc p) j + if i = j then 1 else 0)
    (hslot : (call p).Makes → pc.slot = (s.pc p).slot ∧ ((s.pc p).Open → pc.Open))
    (hown : Fits call s₀ s p pc) (hclaim : ¬ pc.Claims) (hin : pc.Inside → (s.pc p).Inside) :
    Inv call s₀ ((s.idup i).at_ p pc) := by
  refine h.keep rfl rfl (fun j => store_same fun _ => ⟨rfl,rfl,rfl⟩) (idup_free h.free hi)
    (fun j => ?_) hslot hown (fun hc => (hclaim hc).elim) fun hi => .inl (hin hi)
  change ((s.idup i).inodes j).ref + _ = _
  rw [idup_ref,hrefs]
  omega

theorem inv_moved (h₀ : Start call s₀) (h : Inv call s₀ s) (hgood : Serial call s (p,mem))
    (hm : Moved (call p) mem s p s') : Inv call s₀ s' := by
  have hserial := hgood
  unfold Serial at hserial
  have hf := h.fits p
  cases hm with
  | found hpc | unresolved hpc | full hpc =>
    exact h.quiet hpc rfl False.elim rfl .failed False.elim False.elim
  | unfilled hpc =>
    rw [hpc] at hf
    cases hf with | filling _ hh ha => exact h.quiet hpc rfl id rfl (.undo hh ha) False.elim False.elim
  | taken hpc =>
    rw [hpc] at hf
    cases hf with | adding hh ha _ => exact h.quiet hpc rfl id rfl (.undo hh ha) False.elim False.elim
  | unallocated hpc =>
    rw [hpc] at hf
    cases hf with | dentry hh ha _ _ =>
      exact h.quiet hpc rfl id rfl (.undo hh ha) False.elim False.elim
  | absent hpc hc => exact h.quiet hpc rfl id rfl (.choosing hc) False.elim False.elim
  | @resolved old n i hpc hc hold hi =>
    have hnot : ¬ (call p).Makes := hc ▸ Call.not_makes_link old n
    have hl := namei_linked h₀ hc hold
    have hhas : Has call s₀ s p i := ⟨fun hm => absurd hm hnot,fun _ => ⟨hl,hi⟩,
      fun old' n' heq => by cases hc.symm.trans heq; exact hold⟩
    refine h.dup (h.used_of_linked h₀ hl) (fun j => ?_) (fun hm => absurd hm hnot)
      (.adding hhas (fun hm => absurd hm hnot) fun hm => absurd hm hnot) id False.elim
    rw [hpc,holds_slot (i := i) rfl,holds_none rfl,zero_add]
    rfl
  | chosen hpc hi =>
    rw [hpc] at hserial hf
    cases hf with | choosing hm =>
      exact h.quiet hpc rfl id rfl (.claiming hm hi) (fun _ => .inr hserial.1) False.elim
  | claimed hpc hnew => exact h.claimed h₀ hpc hnew
  | filled hpc => exact h.filled h₀ hpc
  | entered hpc hn =>
    rw [hpc] at hserial hf
    cases hf with | adding hh ha hd =>
      exact h.quiet hpc rfl id rfl (.dentry hh ha hd (dLookup_none.mp hn)) False.elim
        fun _ => .inr hserial
  | allocated hpc =>
    rw [hpc] at hf
    cases hf with | dentry hh ha hd hn =>
      exact h.quiet hpc rfl id rfl (.linking hh ha hd hn) False.elim .inl
  | @loaded i hpc =>
    have hi : (s.pc p).slot = some i := by rw [hpc]; rfl
    have hused := h.used_of_slot h₀ hi
    rw [hpc] at hf
    cases hf with | linking hh ha hd hn =>
    refine h.dup hused (fun j => ?_) (fun _ => ⟨hi.symm,fun _ => trivial⟩) (.storing hh ha hd hn) id
      fun _ => by rw [hpc]; trivial
    rw [holds_slot hi,holds_slot (i := i) rfl,hpc]
    simp only [Pc.refs]
    split <;> rfl
  | stored hpc =>
    rw [hpc] at hf
    cases hf with | storing => exact h.stored hpc
  | @undone i t hpc hput =>
    by_cases hm : (call p).Makes
    · exact h.evicted h₀ hm hpc hput
    · have hi : (s.pc p).slot = some i := by rw [hpc]; rfl
      exact h.put h₀ hi (by rw [hpc]; rfl) ((h.has hi).links hm).1 hput (fun hm' => absurd hm' hm)
        (holds_none rfl) .failed
  | kept hpc hk =>
    rw [hpc] at hf
    cases hf with | putting hh hd he =>
    refine h.quiet hpc rfl False.elim ?_ (.done hh hd he) False.elim False.elim
    simp only [Pc.refs,hk,if_true]
  | put hpc hk hput =>
    rw [hpc] at hf
    cases hf with | putting hh hd he =>
    refine h.put h₀ (by rw [hpc]; rfl) (by rw [hpc]; rfl) (.inr ⟨_,he⟩) hput
      (fun _ => ⟨rfl,by rw [hpc]; exact id⟩) (fun j => ?_) (.done hh hd he)
    simp only [holds,Pc.refs,hk,Bool.false_eq_true,if_false,ite_self]

omit [DecidableEq P] in
theorem Inv.start (h₀ : Start call s₀) : Inv call s₀ s₀ := by
  refine ⟨h₀.free,fun i => ?_,suffix_rfl,fun i _ => ⟨rfl,h₀.maker i⟩,fun i hi => .inl hi,
    fun i hi => .inl (h₀.linked_used hi),h₀.names,fun q => ?_,fun q _ hq => ?_,fun q _ hq => ?_⟩
  · have hzero : ∑ q, holds (call q) (s₀.pc q) i = 0 :=
      Finset.sum_eq_zero fun q _ => holds_none (by rw [h₀.pc q]; rfl) i
    rw [hzero,add_zero]
  · rw [h₀.pc q]
    exact .start
  · rw [h₀.pc q] at hq
    exact hq.elim
  · rw [h₀.pc q] at hq
    exact hq.elim

end TinyOs.Create
