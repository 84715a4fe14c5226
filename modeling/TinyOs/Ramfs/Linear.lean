import TinyOs.Ramfs.Sections

namespace TinyOs.Create

open List State
open Function (update update_apply update_of_ne update_self)

variable {P Name : Type} [DecidableEq Name] {s s' s₀ : State P Name} {p q : P}
  {call : P → Call Name} {i : Slot} {mem : Bool} {old : Source Name} {n : Name}

section Spec

variable {isDir : Node P → Prop} [DecidablePred isDir] {d : Dir P Name} {c : Call Name}

theorem Dir.apply_taken (h : c.name ∈ d.names ∨ mem = false) :
    d.apply isDir p c mem = (d,false) := if_pos h

theorem Dir.apply_makes (hc : c.Makes) : d.apply isDir p c mem =
      if c.name ∈ d.names ∨ mem = false then (d,false) else d.make p c.name := by
  cases c with
  | link old n => exact (hc rfl).elim
  | create n t | mkdir n | symlink n target => rfl

theorem Dir.apply_full (hc : c.Makes) (h : d.free = 0) : d.apply isDir p c mem = (d,false) := by
  rw [apply_makes hc,make,if_pos h,ite_self]

theorem Dir.apply_make (hc : c.Makes) (hn : c.name ∉ d.names) (hfree : d.free ≠ 0) :
    d.apply isDir p c true = ({ d.add c.name (.made p) with free := d.free - 1 },true) := by
  rw [apply_makes hc,if_neg (not_or.mpr ⟨hn,nofun⟩),make,if_neg hfree]

theorem Dir.apply_unresolved
    (h : ∀ x, d.source old = some x → isDir x) : d.apply isDir p (.link old n) mem = (d,false) := by
  have hlink : d.link isDir old n = (d,false) := by
    unfold link
    split
    · rfl
    · rename_i x hx
      exact if_pos (h x hx)
  simp only [apply,hlink,ite_self]

theorem Dir.apply_link {x : Node P} (hn : n ∉ d.names)
    (hold : d.source old = some x) (hx : ¬ isDir x) :
    d.apply isDir p (.link old n) true = (d.add n x,true) := by
  have htaken : ¬ ((Call.link old n).name ∈ d.names ∨ true = false) := not_or.mpr ⟨hn,nofun⟩
  simp only [apply,if_neg htaken,link,hold,if_neg hx]

theorem Dir.seq_concat (isDir : Node P → Prop) [DecidablePred isDir] (call : P → Call Name)
    (d : Dir P Name) (order : List (P × Bool)) (p : P) (mem : Bool) :
    d.seq isDir call (order ++ [(p,mem)]) =
      (((d.seq isDir call order).1.apply isDir p (call p) mem).1,(d.seq isDir call order).2 ++
          [(p,((d.seq isDir call order).1.apply isDir p (call p) mem).2)]) := by
  induction order generalizing d with
  | nil => rfl
  | cons x rest ih => simp only [cons_append,seq,ih]

def Dir.Extends (d : Dir P Name) (n : Name) (r : Dir P Name × Bool) : Prop :=
  r.1.names = (if r.2 then [n] else []) ++ d.names

omit [DecidableEq Name] in
theorem Dir.make_extends (n : Name) : d.Extends n (d.make p n) := by
  unfold make
  split <;> rfl

theorem Dir.link_extends (old : Source Name) (n : Name) : d.Extends n (d.link isDir old n) := by
  unfold link
  split
  · rfl
  · split <;> rfl

theorem Dir.apply_extends (isDir : Node P → Prop) [DecidablePred isDir] (d : Dir P Name) (p : P)
    (c : Call Name) (mem : Bool) :
    d.Extends c.name (d.apply isDir p c mem) ∧
      ((d.apply isDir p c mem).2 = true → c.name ∉ d.names) := by
  by_cases h : c.name ∈ d.names ∨ mem = false
  · rw [apply_taken h]
    exact ⟨rfl,nofun⟩
  refine ⟨?_,fun _ hn => h (.inl hn)⟩
  unfold apply
  rw [if_neg h]
  cases c with
  | link old n => exact d.link_extends old n
  | create n t | mkdir n | symlink n target => exact d.make_extends n

def added (call : P → Call Name) (results : List (P × Bool)) : List Name :=
  ((results.filter (·.2)).map fun x => (call x.1).name).reverse

theorem Dir.seq_names (isDir : Node P → Prop) [DecidablePred isDir] (call : P → Call Name)
    (order : List (P × Bool)) (hd : d.names.Nodup) :
    (d.seq isDir call order).1.names = added call (d.seq isDir call order).2 ++ d.names ∧
      (d.seq isDir call order).1.names.Nodup := by
  induction order using List.reverseRecOn with
  | nil => exact ⟨rfl,hd⟩
  | append_singleton order x ih =>
    obtain ⟨p,mem⟩ := x
    obtain ⟨hnames,hnodup⟩ := ih
    rw [seq_concat]
    obtain ⟨hadd,hnew⟩ := (d.seq isDir call order).1.apply_extends isDir p (call p) mem
    generalize (d.seq isDir call order).1.apply isDir p (call p) mem = r at hadd hnew ⊢
    obtain ⟨d',r⟩ := r
    unfold Extends at hadd
    cases r with
    | false =>
      rw [hadd]
      exact ⟨by simpa [added] using hnames,hnodup⟩
    | true =>
      rw [hadd]
      exact ⟨by simpa [added] using hnames,nodup_cons.mpr ⟨hnew rfl,hnodup⟩⟩

end Spec

def nodeOf (s : State P Name) (i : Slot) : Node P := (s.inodes i).maker.elim (.old i) .made

def IsDir (call : P → Call Name) (s₀ : State P Name) : Node P → Prop
  | .old i => (s₀.inodes i).type = some .dir
  | .made p => (call p).type = some .dir

instance : DecidablePred (IsDir call s₀)
  | .old i => inferInstanceAs (Decidable ((s₀.inodes i).type = some .dir))
  | .made p => inferInstanceAs (Decidable ((call p).type = some .dir))

open Classical in
noncomputable def committed (s₀ s : State P Name) : Finset Slot :=
  Finset.univ.filter fun i => Used s₀ i ∨ Linked s i

noncomputable def abs (s₀ s : State P Name) : Dir P Name where
  dents := s.dents.map fun x => (x.1,nodeOf s x.2)
  free := nInode - (committed s₀ s).card

omit [DecidableEq Name] in
theorem abs_names : (abs s₀ s).names = names s := by
  simp [abs,Dir.names,names]

omit [DecidableEq Name] in
theorem mem_committed : i ∈ committed s₀ s ↔ Used s₀ i ∨ Linked s i := by
  simp [committed]

omit [DecidableEq Name] in
theorem abs_congr (hdents : s'.dents = s.dents)
    (hmaker : ∀ i, Linked s i → (s'.inodes i).maker = (s.inodes i).maker) :
    abs s₀ s' = abs s₀ s := by
  have hlinked : ∀ i, Linked s' i ↔ Linked s i := fun i => by rw [Linked,Linked,hdents]
  have hcommitted : committed s₀ s' = committed s₀ s := by
    ext i
    rw [mem_committed,mem_committed,hlinked]
  simp only [abs,hdents,hcommitted,Dir.mk.injEq,and_true]
  refine map_congr_left fun x hx => ?_
  rw [nodeOf,nodeOf,hmaker x.2 ⟨x.1,hx⟩]

theorem lookup_map {f : Slot → Node P} {l : List (Name × Slot)} {n : Name} :
    (l.map fun x => (x.1,f x.2)).lookup n = (l.lookup n).map f := by
  induction l with
  | nil => rfl
  | cons x rest ih =>
    rw [map_cons,lookup_cons,lookup_cons]
    split
    · rfl
    · exact ih

structure Linear (call : P → Call Name) (s₀ s : State P Name) (order : List (P × Bool)) : Prop where
  final : ((abs s₀ s₀).seq (IsDir call s₀) call order).1 = abs s₀ s
  once : (order.map Prod.fst).Nodup
  result : ∀ p r, (s.pc p).decided = some r →
    (p,r) ∈ ((abs s₀ s₀).seq (IsDir call s₀) call order).2
  pending : ∀ p, (s.pc p).decided = none → p ∉ order.map Prod.fst

variable [DecidableEq P] {order : List (P × Bool)} {pc : Pc Name}

theorem Linear.stay (h : Linear call s₀ s order) (habs : abs s₀ s' = abs s₀ s)
    (hpc : s'.pc = update s.pc p pc) (hdec : pc.decided = (s.pc p).decided) :
    Linear call s₀ s' order := by
  have hsame : ∀ q, (s'.pc q).decided = (s.pc q).decided := by
    rw [hpc]
    exact (Function.forall_update_iff s.pc fun q c => c.decided = (s.pc q).decided).mpr
      ⟨hdec,fun _ _ => rfl⟩
  refine ⟨h.final.trans habs.symm,h.once,fun q r hq => ?_,fun q hq => ?_⟩
  · exact h.result q r ((hsame q).symm.trans hq)
  · exact h.pending q ((hsame q).symm.trans hq)

theorem Linear.settle {r : Bool} (h : Linear call s₀ s order)
    (hpc : s'.pc = update s.pc p pc) (hnone : (s.pc p).decided = none)
    (hsome : pc.decided = some r)
    (happly : (abs s₀ s).apply (IsDir call s₀) p (call p) mem = (abs s₀ s',r)) :
    Linear call s₀ s' (order ++ [(p,mem)]) := by
  have hseq := Dir.seq_concat (IsDir call s₀) call (abs s₀ s₀) order p mem
  rw [h.final,happly] at hseq
  refine ⟨by rw [hseq],?_,fun q r' hq => ?_,fun q hq => ?_⟩
  · rw [map_append]
    refine nodup_append.mpr ⟨h.once,nodup_singleton _,?_⟩
    intro a ha b hb hab
    rw [map_singleton,mem_singleton] at hb
    have hap : a = p := hab.trans hb
    exact h.pending p hnone (hap ▸ ha)
  · rw [hseq]
    by_cases hqp : q = p
    · rw [hqp,hpc,update_self,hsome] at hq
      cases hq
      rw [hqp]
      exact mem_append_right _ (mem_singleton.mpr rfl)
    · rw [hpc,update_of_ne hqp] at hq
      exact mem_append_left _ (h.result q r' hq)
  · have hqp : q ≠ p := by
      rintro rfl
      rw [hpc,update_self,hsome] at hq
      cases hq
    rw [hpc,update_of_ne hqp] at hq
    rw [map_append,mem_append,map_singleton,mem_singleton]
    exact not_or.mpr ⟨h.pending q hq,hqp⟩

variable [Fintype P]

omit [DecidableEq P] in
theorem Inv.isDir_nodeOf (h : Inv call s₀ s) (hi : Used s₀ i ∨ Linked s i) :
    IsDir call s₀ (nodeOf s i) ↔ (s.inodes i).type = some .dir := by
  by_cases hu : Used s₀ i
  · obtain ⟨htype,hmaker⟩ := h.old i hu
    rw [nodeOf,hmaker,htype]
    exact Iff.rfl
  obtain ⟨q,hm,hq⟩ := (h.linked i (hi.resolve_left hu)).resolve_left hu
  obtain ⟨-,hmaker,htype⟩ := (h.has hq).mine hm
  rw [nodeOf,hmaker,htype]
  exact Iff.rfl

omit [DecidableEq P] in
theorem Inv.source_abs (h : Inv call s₀ s) (h₀ : Start call s₀)
    (hc : call p = .link old n) : (abs s₀ s).source old = (s.namei old).map (nodeOf s) := by
  cases old with
  | name m => exact lookup_map
  | inode i =>
    have hmaker := (h.old i (h₀.source p i n hc)).2
    simp only [Dir.source,namei,Option.map_some,nodeOf,hmaker,Option.elim_none]

theorem Inv.maker_linked (h : Inv call s₀ s) (h₀ : Start call s₀)
    (hm : Moved (call p) mem s p s') (hi : Linked s i) :
    (s'.inodes i).maker = (s.inodes i).maker := by
  have hf := h.fits p
  cases hm with
  | resolved | filled | loaded =>
    simp only [at_,idup,store,update_apply]
    split
    · rename_i hij
      rw [hij]
    · rfl
  | claimed hpc hnew =>
    rw [hpc] at hf
    cases hf with | claiming _ hfree =>
    refine (store_same fun hij => ?_).2.1
    exact absurd hi (hij ▸ (h.unlinked_of_free h₀ hfree).2)
  | @undone j t hpc hput | @put j t hpc hk hput =>
    refine ((iput_frame hput).2.2 fun hij => ?_).2.1
    subst hij
    exact h.ref_held h₀ (p := p) (by rw [hpc]; rfl) (by rw [hpc]; rfl) (.inr hi)
  | _ => rfl

omit [DecidableEq P] in
theorem Inv.full (h : Inv call s₀ s) (hfull : ∀ i, Used s i)
    (hopen : ∀ q, (call q).Makes → ¬ (s.pc q).Open) : (abs s₀ s).free = 0 := by
  have hall : committed s₀ s = Finset.univ := by
    ext i
    simp only [mem_committed,Finset.mem_univ,iff_true]
    rcases h.cover i (hfull i) with hu | hl | ⟨q,hm,ho,-⟩
    · exact .inl hu
    · exact .inr hl
    · exact (hopen q hm ho).elim
  simp only [abs,hall,Finset.card_univ,Fintype.card_fin,Nat.sub_self]

omit [DecidableEq Name] [Fintype P] in
theorem committed_stored (s₀ s : State P Name) (p : P) (n : Name) (i : Slot) :
    committed s₀ ({ s with dents := (n,i) :: s.dents }.at_ p (.putting i)) =
      insert i (committed s₀ s) := by
  ext j
  rw [mem_committed,Finset.mem_insert,mem_committed]
  constructor
  · rintro (hu | ⟨m,hm⟩)
    · exact .inr (.inl hu)
    · rcases mem_cons.mp hm with heq | hm
      · exact .inl (Prod.mk.inj heq).2
      · exact .inr (.inr ⟨m,hm⟩)
  · rintro (rfl | hu | ⟨m,hm⟩)
    · exact .inr ⟨n,mem_cons_self⟩
    · exact .inl hu
    · exact .inr ⟨m,mem_cons_of_mem _ hm⟩

omit [DecidableEq Name] [Fintype P] in
theorem abs_stored (s₀ s : State P Name) (p : P) (n : Name) (i : Slot) :
    abs s₀ ({ s with dents := (n,i) :: s.dents }.at_ p (.putting i)) =
      { (abs s₀ s).add n (nodeOf s i) with
        free := nInode - (insert i (committed s₀ s)).card } := by
  rw [abs,committed_stored]
  rfl

theorem Inv.apply_stored (h : Inv call s₀ s) (h₀ : Start call s₀)
    (hpc : s.pc p = .storing i s.dents) :
    (abs s₀ s).apply (IsDir call s₀) p (call p) true =
      (abs s₀ ({ s with dents := ((call p).name,i) :: s.dents }.at_ p (.putting i)),true) := by
  have hf := h.fits p
  rw [hpc] at hf
  cases hf with | storing hhas ha _ hfresh =>
  have hn : (call p).name ∉ (abs s₀ s).names := by
    rw [abs_names]
    exact hfresh
  rw [abs_stored]
  by_cases hc : (call p).Makes
  · obtain ⟨hold,hmaker,-⟩ := hhas.mine hc
    have hout : i ∉ committed s₀ s := by
      rw [mem_committed]
      exact not_or.mpr ⟨hold,ha hc⟩
    have hcard := Finset.card_insert_of_notMem hout
    have hle := Finset.card_le_univ (insert i (committed s₀ s))
    rw [Fintype.card_fin] at hle
    have hnode : nodeOf s i = .made p := by rw [nodeOf,hmaker]; rfl
    have hfree : (abs s₀ s).free = nInode - (committed s₀ s).card := rfl
    rw [Dir.apply_make hc hn (by omega),hcard,hnode,hfree,Nat.sub_add_eq]
  obtain ⟨old,n,hlink⟩ := Call.not_makes hc
  have hsource := hhas.source old n hlink
  obtain ⟨hl,hdir⟩ := hhas.links hc
  have hin : i ∈ committed s₀ s := mem_committed.mpr hl
  have hx : ¬ IsDir call s₀ (nodeOf s i) := fun hx => hdir ((h.isDir_nodeOf hl).mp hx)
  have hnode : (abs s₀ s).source old = some (nodeOf s i) := by
    rw [h.source_abs h₀ hlink,hsource]
    rfl
  rw [hlink] at hn ⊢
  rw [Dir.apply_link (n := n) hn hnode hx,Finset.insert_eq_of_mem hin]
  rfl

theorem linear_moved (h₀ : Start call s₀) (h : Inv call s₀ s) (hgood : Serial call s (p,mem))
    (hm : Moved (call p) mem s p s') (hl : Linear call s₀ s order) :
    ∃ more, Linear call s₀ s' (order ++ more) := by
  have habs : s'.dents = s.dents → abs s₀ s' = abs s₀ s :=
    fun hdents => abs_congr hdents fun i hi => h.maker_linked h₀ hm hi
  have hstay : ∀ pc, s'.pc = update s.pc p pc → s'.dents = s.dents →
      pc.decided = (s.pc p).decided → ∃ more, Linear call s₀ s' (order ++ more) :=
    fun pc hpc hdents hdec => ⟨[],by rw [append_nil]; exact hl.stay (habs hdents) hpc hdec⟩
  have hfail : ∀ pc mem, s'.pc = update s.pc p pc → s'.dents = s.dents →
      (s.pc p).decided = none → pc.decided = some false →
      (abs s₀ s).apply (IsDir call s₀) p (call p) mem = (abs s₀ s,false) →
      ∃ more, Linear call s₀ s' (order ++ more) :=
    fun pc mem hpc hdents hnone hsome happly =>
      ⟨[(p,mem)],hl.settle hpc hnone hsome (by rw [happly,habs hdents])⟩
  have hserial := hgood
  unfold Serial at hserial
  cases hm with
  | found hpc hc hn | taken hpc hn =>
    refine hfail _ true rfl rfl (by rw [hpc]; rfl) rfl (Dir.apply_taken (.inl ?_))
    rw [abs_names]
    exact dLookup_isSome.mp hn
  | absent hpc hc | resolved hpc hc hold hi | chosen hpc hi | filled hpc | entered hpc hn
  | allocated hpc | loaded hpc | kept hpc hk => exact hstay _ rfl rfl (by rw [hpc]; rfl)
  | @unresolved old n hpc hc hold =>
    refine hfail _ true rfl rfl (by rw [hpc]; rfl) rfl ?_
    rw [hc]
    refine Dir.apply_unresolved fun x hx => ?_
    rw [h.source_abs h₀ hc] at hx
    obtain ⟨i,hi,rfl⟩ := Option.map_eq_some_iff.mp hx
    exact (h.isDir_nodeOf (namei_linked h₀ hc hi)).mpr (hold i hi)
  | full hpc hfull =>
    rw [hpc] at hserial
    have hopen := hserial.2.resolve_left fun ⟨i,hi⟩ => hi (hfull i)
    have hf := h.fits p
    rw [hpc] at hf
    cases hf with | choosing hc =>
    exact hfail _ true rfl rfl (by rw [hpc]; rfl) rfl (Dir.apply_full hc (h.full hfull hopen))
  | claimed hpc hnew =>
    refine hstay _ rfl rfl ?_
    rw [hpc]
    rcases hnew with rfl | ⟨-,rfl⟩
    · rfl
    · rfl
  | unfilled hpc hmem | unallocated hpc hmem =>
    exact hfail _ false rfl rfl (by rw [hpc]; rfl) rfl (Dir.apply_taken (.inr rfl))
  | stored hpc =>
    have hf := h.fits p
    rw [hpc] at hf
    cases hf with | storing =>
    exact ⟨[(p,true)],hl.settle rfl (by rw [hpc]; rfl) rfl (h.apply_stored h₀ hpc)⟩
  | @undone i t hpc hput | @put i t hpc hk hput =>
    obtain ⟨htpc,hdents,-⟩ := iput_frame (i := i) hput
    exact hstay _ (congrArg (update · p _) htpc) hdents (by rw [hpc]; rfl)

end TinyOs.Create
