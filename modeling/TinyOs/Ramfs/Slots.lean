import TinyOs.Library.Count
import TinyOs.Ramfs.Steps

namespace TinyOs.Create

open List Finset State
open Function (update update_apply update_of_ne update_self)

variable {P Name : Type} {c : Call Name}

def Linked (s : State P Name) (i : Slot) : Prop := ∃ n, (n,i) ∈ s.dents

def names (s : State P Name) : List Name := s.dents.map Prod.fst

def entries (s : State P Name) (i : Slot) : Nat := s.dents.countP fun x => x.2 = i

def holds (c : Call Name) (pc : Pc Name) (i : Slot) : Nat :=
  if pc.slot = some i then pc.refs c else 0

theorem holds_slot {pc : Pc Name} {i : Slot} (h : pc.slot = some i) (j : Slot) :
    holds c pc j = if i = j then pc.refs c else 0 := by
  simp only [holds,h,Option.some.injEq]

theorem holds_none {pc : Pc Name} (h : pc.slot = none) (j : Slot) : holds c pc j = 0 := by
  rw [holds,h,if_neg nofun]

structure Start (call : P → Call Name) (s : State P Name) : Prop where
  pc : ∀ p, s.pc p = .start
  free : ∀ i, ¬ Used s i → (s.inodes i).ref = 0
  used : ∀ i, Used s i → 0 < (s.inodes i).ref
  maker : ∀ i, (s.inodes i).maker = none
  counted : ∀ i, entries s i ≤ (s.inodes i).ref
  names : (s.dents.map Prod.fst).Nodup
  source : ∀ p i n, call p = .link (.inode i) n → Used s i

def Inode.Same (a b : Inode P) : Prop := a.type = b.type ∧ a.maker = b.maker ∧ a.data = b.data

section Fits

variable [DecidableEq Name]

structure Has (call : P → Call Name) (s₀ s : State P Name) (p : P) (i : Slot) : Prop where
  mine : (call p).Makes →
    ¬ Used s₀ i ∧ (s.inodes i).maker = some p ∧ (s.inodes i).type = (call p).type
  links : ¬ (call p).Makes → (Used s₀ i ∨ Linked s i) ∧ (s.inodes i).type ≠ some .dir
  source : ∀ old n, call p = .link old n → s.namei old = some i

def Apart (c : Call Name) (s : State P Name) (i : Slot) : Prop := c.Makes → ¬ Linked s i

def Full (c : Call Name) (s : State P Name) (i : Slot) : Prop := c.Makes → (s.inodes i).data = c.data

inductive Fits (call : P → Call Name) (s₀ s : State P Name) (p : P) : Pc Name → Prop
  | start : Fits call s₀ s p .start
  | choosing (hm : (call p).Makes) : Fits call s₀ s p .choosing
  | claiming {i : Slot} (hm : (call p).Makes) (hi : ¬ Used s i) : Fits call s₀ s p (.claiming i)
  | filling {i : Slot} (hm : (call p).Makes) (h : Has call s₀ s p i) (ha : Apart (call p) s i) :
      Fits call s₀ s p (.filling i)
  | adding {i : Slot} (h : Has call s₀ s p i) (ha : Apart (call p) s i) (hd : Full (call p) s i) :
      Fits call s₀ s p (.adding i)
  | dentry {i : Slot} (h : Has call s₀ s p i) (ha : Apart (call p) s i) (hd : Full (call p) s i)
      (hn : (call p).name ∉ names s) : Fits call s₀ s p (.dentry i)
  | linking {i : Slot} (h : Has call s₀ s p i) (ha : Apart (call p) s i) (hd : Full (call p) s i)
      (hn : (call p).name ∉ names s) : Fits call s₀ s p (.linking i)
  | storing {i : Slot} (h : Has call s₀ s p i) (ha : Apart (call p) s i) (hd : Full (call p) s i)
      (hn : (call p).name ∉ names s) : Fits call s₀ s p (.storing i s.dents)
  | undo {i : Slot} (h : Has call s₀ s p i) (ha : Apart (call p) s i) : Fits call s₀ s p (.undo i)
  | putting {i : Slot} (h : Has call s₀ s p i) (hd : Full (call p) s i)
      (he : ((call p).name,i) ∈ s.dents) : Fits call s₀ s p (.putting i)
  | failed : Fits call s₀ s p (.done none)
  | done {i : Slot} (h : Has call s₀ s p i) (hd : Full (call p) s i)
      (he : ((call p).name,i) ∈ s.dents) : Fits call s₀ s p (.done (some i))

variable {s s' s₀ : State P Name} {p : P} {call : P → Call Name} {i : Slot} {pc : Pc Name}

theorem Has.make (hm : (call p).Makes) (h : ¬ Used s₀ i ∧ (s.inodes i).maker = some p ∧
    (s.inodes i).type = (call p).type) : Has call s₀ s p i := by
  refine ⟨fun _ => h,fun hn => absurd hm hn,fun old n heq => ?_⟩
  rw [heq] at hm
  exact (Call.not_makes_link old n hm).elim

theorem Has.frame (h : Has call s₀ s p i) (hdents : s'.dents = s.dents)
    (hsame : (s'.inodes i).Same (s.inodes i)) : Has call s₀ s' p i := by
  obtain ⟨inodes,dents,pcs⟩ := s'
  cases hdents
  refine ⟨fun hm => ?_,fun hm => ?_,h.source⟩
  · rw [hsame.1,hsame.2.1]
    exact h.mine hm
  · rw [hsame.1]
    exact h.links hm

theorem Fits.frame (h : Fits call s₀ s p pc) (hdents : s'.dents = s.dents)
    (hclaim : ∀ j, pc = .claiming j → Used s' j → Used s j)
    (hsame : ∀ j, pc.slot = some j → (s'.inodes j).Same (s.inodes j)) : Fits call s₀ s' p pc := by
  have hhas : ∀ {j}, pc.slot = some j → Has call s₀ s p j → Has call s₀ s' p j :=
    fun hj h => h.frame hdents (hsame _ hj)
  have hfull : ∀ {j}, pc.slot = some j → Full (call p) s j → Full (call p) s' j :=
    fun hj h hm => (hsame _ hj).2.2.trans (h hm)
  obtain ⟨inodes,dents,pcs⟩ := s'
  cases hdents
  cases h with
  | start => exact .start
  | choosing hm => exact .choosing hm
  | claiming hm hi => exact .claiming hm fun hu => hi (hclaim _ rfl hu)
  | filling hm h ha => exact .filling hm (hhas rfl h) ha
  | adding h ha hd => exact .adding (hhas rfl h) ha (hfull rfl hd)
  | dentry h ha hd hn => exact .dentry (hhas rfl h) ha (hfull rfl hd) hn
  | linking h ha hd hn => exact .linking (hhas rfl h) ha (hfull rfl hd) hn
  | storing h ha hd hn => exact .storing (hhas rfl h) ha (hfull rfl hd) hn
  | undo h ha => exact .undo (hhas rfl h) ha
  | putting h hd he => exact .putting (hhas rfl h) (hfull rfl hd) he
  | failed => exact .failed
  | done h hd he => exact .done (hhas rfl h) (hfull rfl hd) he

end Fits

structure Inv [Fintype P] [DecidableEq Name] (call : P → Call Name) (s₀ s : State P Name) : Prop where
  free : ∀ i, ¬ Used s i → (s.inodes i).ref = 0
  refs : ∀ i, (s.inodes i).ref + entries s₀ i =
    (s₀.inodes i).ref + entries s i + ∑ p, holds (call p) (s.pc p) i
  grows : s₀.dents <:+ s.dents
  old : ∀ i, Used s₀ i → (s.inodes i).type = (s₀.inodes i).type ∧ (s.inodes i).maker = none
  cover : ∀ i, Used s i →
    Used s₀ i ∨ Linked s i ∨ ∃ p, (call p).Makes ∧ (s.pc p).Open ∧ (s.pc p).slot = some i
  linked : ∀ i, Linked s i → Used s₀ i ∨ ∃ p, (call p).Makes ∧ (s.pc p).slot = some i
  nodup : (names s).Nodup
  fits : ∀ p, Fits call s₀ s p (s.pc p)
  claimer : ∀ p q, (s.pc p).Claims → (s.pc q).Claims → p = q
  inside : ∀ p q, (s.pc p).Inside → (s.pc q).Inside → p = q

variable [DecidableEq Name] {s s' s₀ : State P Name} {p : P} {call : P → Call Name} {i : Slot}
  {pc : Pc Name}

section

variable {t : State P Name}

omit [DecidableEq Name]

theorem entries_pos : Linked s i ↔ 0 < entries s i := by
  unfold entries
  rw [countP_pos_iff]
  constructor
  · rintro ⟨n,hn⟩
    exact ⟨(n,i),hn,decide_eq_true rfl⟩
  · rintro ⟨⟨n,j⟩,hn,hj⟩
    cases of_decide_eq_true hj
    exact ⟨n,hn⟩

theorem Start.linked_used (h : Start call s) (hi : Linked s i) : Used s i := by
  by_contra hfree
  have hle := h.counted i
  rw [h.free i hfree] at hle
  exact absurd (entries_pos.mp hi) (not_lt.mpr hle)

theorem store_same {j : Slot} {ip : Inode P} (hsame : i = j → ip.Same (s.inodes j)) :
    ((s.store j ip).inodes i).Same (s.inodes i) := by
  simp only [store,update_apply]
  split
  · rename_i hij
    rw [hij]
    exact hsame hij
  · exact ⟨rfl,rfl,rfl⟩

theorem idup_ref (i j : Slot) :
    ((s.idup i).inodes j).ref = (s.inodes j).ref + if i = j then 1 else 0 := by
  simp only [idup,store,update_apply]
  by_cases hj : j = i
  · rw [if_pos hj,if_pos hj.symm,hj]
  · rw [if_neg hj,if_neg (Ne.symm hj),add_zero]

theorem idup_free (hfree : ∀ i, ¬ Used s i → (s.inodes i).ref = 0) (hi : Used s i) (j : Slot)
    (hj : ¬ Used s j) : ((s.idup i).inodes j).ref = 0 := by
  rw [idup_ref,if_neg,hfree j hj]
  rintro rfl
  exact hj hi

theorem iput_shared (href : 1 < (s.inodes i).ref) (hput : s.iput i = some t) :
    t.pc = s.pc ∧ t.dents = s.dents ∧ ∀ j, t.inodes j =
      { s.inodes j with ref := (s.inodes j).ref - if i = j then 1 else 0 } := by
  unfold iput at hput
  rw [if_neg (by omega),if_neg (by omega)] at hput
  cases hput
  refine ⟨rfl,rfl,fun j => ?_⟩
  simp only [store,update_apply]
  by_cases hj : j = i
  · subst hj
    simp only [if_true]
  · simp only [if_neg hj,if_neg (Ne.symm hj),Nat.sub_zero]

theorem iput_refs
    (href : 1 < (s.inodes i).ref) (hput : s.iput i = some t) (hi : (s.pc p).slot = some i)
    (hone : (s.pc p).refs (call p) = 1) (hzero : ∀ j, holds (call p) pc j = 0) (j : Slot) :
    (t.inodes j).ref + holds (call p) (s.pc p) j = (s.inodes j).ref + holds (call p) pc j := by
  simp only [(iput_shared href hput).2.2 j,hzero,holds_slot hi,hone]
  by_cases hj : i = j
  · subst hj
    rw [if_pos rfl]
    omega
  · rw [if_neg hj]
    rfl

theorem iput_frame {j : Slot} (hput : s.iput j = some t) :
    t.pc = s.pc ∧ t.dents = s.dents ∧ ((i = j → 1 < (s.inodes j).ref) →
      (t.inodes i).Same (s.inodes i)) := by
  by_cases href : 1 < (s.inodes j).ref
  · obtain ⟨hpc,hdents,hof⟩ := iput_shared href hput
    refine ⟨hpc,hdents,fun _ => ?_⟩
    rw [hof]
    exact ⟨rfl,rfl,rfl⟩
  unfold iput at hput
  split at hput
  · cases hput
  rw [if_pos (by omega)] at hput
  cases hput
  exact ⟨rfl,rfl,fun hi => store_same fun hij => absurd (hi hij) href⟩

end

section Count

variable [Fintype P]

theorem Inv.has (h : Inv call s₀ s) (hi : (s.pc p).slot = some i) : Has call s₀ s p i := by
  have hf := h.fits p
  generalize s.pc p = pc at hf hi
  cases hf <;> cases hi <;> assumption

theorem Inv.apart (h : Inv call s₀ s) (ho : (s.pc p).Open) (hi : (s.pc p).slot = some i) :
    Apart (call p) s i := by
  have hf := h.fits p
  generalize s.pc p = pc at hf ho hi
  cases hf <;> cases hi <;> first | assumption | exact ho.elim

theorem Inv.entries_le (h : Inv call s₀ s) (i : Slot) : entries s₀ i ≤ entries s i :=
  h.grows.sublist.countP_le

theorem Inv.ref_gt (h : Inv call s₀ s) (h₀ : Start call s₀) (hi : Used s₀ i ∨ Linked s i) :
    ∑ p, holds (call p) (s.pc p) i < (s.inodes i).ref := by
  have hrefs := h.refs i
  have hle := h.entries_le i
  by_cases hu : Used s₀ i
  · have hpos := h₀.used i hu
    omega
  have hzero : entries s₀ i = 0 :=
    Nat.eq_zero_of_not_pos fun hpos => hu (h₀.linked_used (entries_pos.mpr hpos))
  have hpos := entries_pos.mp (hi.resolve_left hu)
  omega

theorem Inv.used_of_linked (h : Inv call s₀ s) (h₀ : Start call s₀)
    (hi : Used s₀ i ∨ Linked s i) : Used s i := by
  by_contra hfree
  have hgt := h.ref_gt h₀ hi
  rw [h.free i hfree] at hgt
  exact Nat.not_lt_zero _ hgt

theorem Inv.unlinked_of_free (h : Inv call s₀ s) (h₀ : Start call s₀) (hi : ¬ Used s i) :
    ¬ Used s₀ i ∧ ¬ Linked s i :=
  ⟨fun hu => hi (h.used_of_linked h₀ (.inl hu)),fun hl => hi (h.used_of_linked h₀ (.inr hl))⟩

omit [DecidableEq Name] in
theorem holds_le_sum (call : P → Call Name) (s : State P Name) (p : P) (i : Slot) :
    holds (call p) (s.pc p) i ≤ ∑ q, holds (call q) (s.pc q) i :=
  single_le_sum (f := fun q => holds (call q) (s.pc q) i) (fun _ _ => Nat.zero_le _)
    (mem_univ p)

theorem Inv.alone {q : P} (h : Inv call s₀ s) (hm : (call p).Makes) (ho : (s.pc p).Open)
    (hi : (s.pc p).slot = some i) (hq : q ≠ p) : (s.pc q).slot ≠ some i := by
  intro hslot
  obtain ⟨hold,hmaker,-⟩ := (h.has hi).mine hm
  by_cases hmq : (call q).Makes
  · have heq := ((h.has hslot).mine hmq).2.1
    exact hq (Option.some.inj (heq.symm.trans hmaker))
  · exact ((h.has hslot).links hmq).1.elim hold (h.apart ho hi hm)

theorem Inv.ref_mine (h : Inv call s₀ s) (h₀ : Start call s₀) (hm : (call p).Makes)
    (ho : (s.pc p).Open) (hi : (s.pc p).slot = some i) :
    (s.inodes i).ref = (s.pc p).refs (call p) := by
  obtain ⟨hold,-,-⟩ := (h.has hi).mine hm
  have hrefs := h.refs i
  have hnone : entries s i = 0 :=
    Nat.eq_zero_of_not_pos fun hpos => h.apart ho hi hm (entries_pos.mpr hpos)
  have hle := h.entries_le i
  have hsum : ∑ q, holds (call q) (s.pc q) i = holds (call p) (s.pc p) i :=
    sum_eq_single p (fun q _ hq => if_neg (h.alone hm ho hi hq)) (absurd (mem_univ p))
  rw [holds_slot hi,if_pos rfl] at hsum
  rw [hsum,h₀.free i hold,hnone] at hrefs
  omega

theorem Inv.used_of_slot (h : Inv call s₀ s) (h₀ : Start call s₀) (hi : (s.pc p).slot = some i) :
    Used s i := by
  by_cases hm : (call p).Makes
  · intro hnone
    rw [((h.has hi).mine hm).2.2] at hnone
    exact hm hnone
  · exact h.used_of_linked h₀ ((h.has hi).links hm).1

theorem Inv.ref_held (h : Inv call s₀ s) (h₀ : Start call s₀) (hi : (s.pc p).slot = some i)
    (hone : (s.pc p).refs (call p) = 1) (hl : Used s₀ i ∨ Linked s i) : 1 < (s.inodes i).ref := by
  have hle := holds_le_sum call s p i
  rw [holds_slot hi,if_pos rfl,hone] at hle
  exact lt_of_le_of_lt hle (h.ref_gt h₀ hl)

end Count

section Moves

variable [DecidableEq P]

omit [DecidableEq Name] in
theorem sum_holds [Fintype P] (call : P → Call Name) (hpc : s'.pc = update s.pc p pc) (i : Slot) :
    ∑ q, holds (call q) (s'.pc q) i + holds (call p) (s.pc p) i =
      ∑ q, holds (call q) (s.pc q) i + holds (call p) pc i := by
  have h := Count.sum_add_of_ne (f := fun q => holds (call q) (s'.pc q) i)
    (g := fun q => holds (call q) (s.pc q) i) p fun q hq => by
      rw [hpc,update_of_ne hq]
  simpa only [hpc,update_self] using h

omit [DecidableEq Name] in
theorem unique_moved {R : Pc Name → Prop} (hpc : s'.pc = update s.pc p pc)
    (hp : R pc → R (s.pc p) ∨ ∀ q, ¬ R (s.pc q)) (huniq : ∀ a b, R (s.pc a) → R (s.pc b) → a = b)
    (a b : P) (ha : R (s'.pc a)) (hb : R (s'.pc b)) : a = b := by
  rw [hpc] at ha hb
  by_cases hap : a = p <;> by_cases hbp : b = p
  · exact hap.trans hbp.symm
  · rw [hap,update_self] at ha
    rw [update_of_ne hbp] at hb
    rcases hp ha with hin | hnone
    · exact hap.trans (huniq p b hin hb)
    · exact (hnone b hb).elim
  · rw [hbp,update_self] at hb
    rw [update_of_ne hap] at ha
    rcases hp hb with hin | hnone
    · exact (huniq a p ha hin).trans hbp.symm
    · exact (hnone a ha).elim
  · rw [update_of_ne hap] at ha
    rw [update_of_ne hbp] at hb
    exact huniq a b ha hb

variable [Fintype P]

theorem Inv.moved (h : Inv call s₀ s) (hpc : s'.pc = update s.pc p pc)
    (hdents : s'.dents = s.dents) (hold : ∀ j, Used s₀ j → (s'.inodes j).Same (s.inodes j))
    (hsame : ∀ q j, q ≠ p → (s.pc q).slot = some j → (s'.inodes j).Same (s.inodes j))
    (hclaims : ∀ q j, q ≠ p → s.pc q = .claiming j → Used s' j → Used s j)
    (hfree : ∀ j, ¬ Used s' j → (s'.inodes j).ref = 0)
    (hrefs : ∀ j, (s'.inodes j).ref + holds (call p) (s.pc p) j =
      (s.inodes j).ref + holds (call p) pc j)
    (hcover : ∀ j, Used s' j → Used s j ∧
      ((call p).Makes → (s.pc p).Open → (s.pc p).slot = some j → pc.Open ∧ pc.slot = some j) ∨
        (call p).Makes ∧ pc.Open ∧ pc.slot = some j)
    (hlinked : ∀ j, (call p).Makes → Linked s j → (s.pc p).slot = some j → pc.slot = some j)
    (hown : Fits call s₀ s' p pc)
    (hclaimer : pc.Claims → (s.pc p).Claims ∨ ∀ q, ¬ (s.pc q).Claims)
    (hinside : pc.Inside → (s.pc p).Inside ∨ ∀ q, ¬ (s.pc q).Inside) : Inv call s₀ s' := by
  have hp : s'.pc p = pc := by rw [hpc,update_self]
  have hof : ∀ q, q ≠ p → s'.pc q = s.pc q := fun q hq => by rw [hpc,update_of_ne hq]
  have hlink : ∀ j, Linked s' j ↔ Linked s j := fun j => by rw [Linked,Linked,hdents]
  refine ⟨hfree,fun j => ?_,by rw [hdents]; exact h.grows,fun j hj => ?_,fun j hj => ?_,
    fun j hj => ?_,by rw [names,hdents]; exact h.nodup,fun q => ?_,
    unique_moved hpc hclaimer h.claimer,unique_moved hpc hinside h.inside⟩
  · have hsum := sum_holds call hpc j
    have hold := h.refs j
    have hnew := hrefs j
    have hentries : entries s' j = entries s j := by rw [entries,entries,hdents]
    omega
  · rw [(hold j hj).1,(hold j hj).2.1]
    exact h.old j hj
  · rw [hlink]
    rcases hcover j hj with ⟨hu,hpj⟩ | ⟨hm,ho,hs⟩
    · rcases h.cover j hu with hu | hl | ⟨q,hm,ho,hq⟩
      · exact .inl hu
      · exact .inr (.inl hl)
      by_cases hqp : q = p
      · subst hqp
        exact .inr (.inr ⟨q,hm,hp ▸ hpj hm ho hq⟩)
      · exact .inr (.inr ⟨q,hm,by rwa [hof q hqp],by rwa [hof q hqp]⟩)
    · exact .inr (.inr ⟨p,hm,hp ▸ ⟨ho,hs⟩⟩)
  · rw [hlink] at hj
    rcases h.linked j hj with hu | ⟨q,hm,hq⟩
    · exact .inl hu
    by_cases hqp : q = p
    · subst hqp
      exact .inr ⟨q,hm,hp ▸ hlinked j hm hj hq⟩
    · exact .inr ⟨q,hm,by rwa [hof q hqp]⟩
  · by_cases hq : q = p
    · rw [hq,hp]
      exact hown
    · rw [hof q hq]
      exact (h.fits q).frame hdents (fun j => hclaims q j hq) fun j => hsame q j hq

theorem Inv.keep (h : Inv call s₀ s) (hpc : s'.pc = update s.pc p pc) (hdents : s'.dents = s.dents)
    (hinode : ∀ j, (s'.inodes j).Same (s.inodes j)) (hfree : ∀ j, ¬ Used s j → (s'.inodes j).ref = 0)
    (hrefs : ∀ j, (s'.inodes j).ref + holds (call p) (s.pc p) j =
      (s.inodes j).ref + holds (call p) pc j)
    (hslot : (call p).Makes → pc.slot = (s.pc p).slot ∧ ((s.pc p).Open → pc.Open))
    (hown : Fits call s₀ s p pc)
    (hclaimer : pc.Claims → (s.pc p).Claims ∨ ∀ q, ¬ (s.pc q).Claims)
    (hinside : pc.Inside → (s.pc p).Inside ∨ ∀ q, ¬ (s.pc q).Inside) : Inv call s₀ s' := by
  have hused : ∀ j, Used s' j ↔ Used s j := fun j => by rw [Used,Used,(hinode j).1]
  refine h.moved hpc hdents (fun j _ => hinode j) (fun _ j _ _ => hinode j)
    (fun _ j _ _ => (hused j).mp) (fun j hj => hfree j fun hu => hj ((hused j).mpr hu)) hrefs
    (fun j hj => .inl ⟨(hused j).mp hj,fun hm ho hi => ?_⟩)
    (fun j hm _ hi => (hslot hm).1.trans hi)
    (hown.frame hdents (fun j _ => (hused j).mp) fun j _ => hinode j) hclaimer hinside
  exact ⟨(hslot hm).2 ho,(hslot hm).1.trans hi⟩

theorem Inv.quiet {c : Pc Name} (h : Inv call s₀ s) (hpc : s.pc p = c) (hslot : pc.slot = c.slot)
    (hopen : c.Open → pc.Open) (hrefs : pc.refs (call p) = c.refs (call p))
    (hown : Fits call s₀ s p pc) (hclaimer : pc.Claims → c.Claims ∨ ∀ q, ¬ (s.pc q).Claims)
    (hinside : pc.Inside → c.Inside ∨ ∀ q, ¬ (s.pc q).Inside) : Inv call s₀ (s.at_ p pc) := by
  subst hpc
  refine h.keep rfl rfl (fun _ => ⟨rfl,rfl,rfl⟩) h.free (fun i => ?_) (fun _ => ⟨hslot,hopen⟩) hown
    hclaimer hinside
  rw [holds,holds,hslot,hrefs]
  rfl

end Moves

end TinyOs.Create
