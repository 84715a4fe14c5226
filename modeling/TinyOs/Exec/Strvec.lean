import TinyOs.UserCopy

namespace TinyOs.Strvec

open Ctx List

def copyinstrLoop (cur : Bool) (dst srcva : Nat) :
    Nat → Nat → Ctx → (Nat → UInt8) → Ctx × (Nat → UInt8) × Bool
  | 0, _, x, store => (x,store,false)
  | left + 1, i, x, store =>
    match x.copyin cur ((srcva + i) % word) 1 with
    | (x,_,false) => (x,store,false)
    | (x,bs,true) =>
      let store := Function.update store (dst + i) (bs.getD 0 0)
      if bs.getD 0 0 = 0 then (x,store,true)
      else copyinstrLoop cur dst srcva left (i + 1) x store

def copyinstr (x : Ctx) (cur : Bool) (store : Nat → UInt8) (dst srcva max : Nat) :
    Ctx × (Nat → UInt8) × Bool :=
  if max = 0 then (x,store,false) else copyinstrLoop cur dst srcva (max - 1) 0 x store

structure Result where
  ctx : Ctx
  store : Nat → UInt8
  ptrs : List (Option Nat)
  ret : Option Nat

def copyUserStrvecLoop (cur : Bool) (uvec : Nat) :
    Nat → Nat → Ctx → (Nat → UInt8) → List (Option Nat) → Result
  | 0, _, x, store, ptrs => ⟨x,store,ptrs,none⟩
  | left + 1, n, x, store, ptrs =>
    match x.copyin cur ((uvec + n * 4) % word) 4 with
    | (x,_,false) => ⟨x,store,ptrs,none⟩
    | (x,bs,true) =>
      let uarg := u32At bs 0
      if uarg = 0 then ⟨x,store,ptrs ++ [none],some n⟩
      else
        match copyinstr x cur store (n * nname) uarg nname with
        | (x,store,false) => ⟨x,store,ptrs,none⟩
        | (x,store,true) =>
          copyUserStrvecLoop cur uvec left (n + 1) x store (ptrs ++ [some (n * nname)])

def copyUserStrvec (x : Ctx) (cur : Bool) (store : Nat → UInt8) (uvec max : Nat) : Result :=
  if uvec = 0 then ⟨x,store,[none],some 0⟩
  else copyUserStrvecLoop cur uvec max 0 x store []

def WordAt (m : Nat → Option UInt8) (a n : Nat) : Prop :=
  ∀ i < 4, m (a + i) = some ((le32 n).getD i 0)

def StringAt (m : Nat → Option UInt8) (a : Nat) (str : List UInt8) : Prop :=
  0 ∉ str ∧ ∀ i < str.length + 1, m (a + i) = some ((str ++ [0]).getD i 0)

def VectorAt (m : Nat → Option UInt8) : Nat → List (Nat × List UInt8) → Prop
  | a, [] => WordAt m a 0
  | a, e :: es => WordAt m a e.1 ∧ e.1 ≠ 0 ∧ StringAt m e.1 e.2 ∧ VectorAt m (a + 4) es

instance (m : Nat → Option UInt8) (a n : Nat) : Decidable (WordAt m a n) :=
  inferInstanceAs (Decidable (∀ i < 4, _))

instance (m : Nat → Option UInt8) (a : Nat) (str : List UInt8) : Decidable (StringAt m a str) :=
  inferInstanceAs (Decidable (_ ∧ _))

instance instDecidableVectorAt (m : Nat → Option UInt8) : ∀ a es, Decidable (VectorAt m a es)
  | a, [] => inferInstanceAs (Decidable (WordAt m a 0))
  | a, _ :: es =>
    have := instDecidableVectorAt m (a + 4) es
    inferInstanceAs (Decidable (_ ∧ _ ∧ _ ∧ _))

variable {x y : Ctx} {X Y N : Nat → Nat} {d n a i left uvec dst srcva : Nat} {bs str : List UInt8}
  {store : Nat → UInt8} {ptrs : List (Option Nat)} {es : List (Nat × List UInt8)}

theorem reads_lt (h : x.reads a ≠ none) : a < userEnd := by
  by_contra hge
  exact h (if_neg hge)

theorem reads_allows (h : x.reads a ≠ none) : x.mm.allows a false = true := by
  have hlt := reads_lt h
  rw [reads,if_pos hlt] at h
  rw [Mm.allows,decide_eq_true hlt]
  rcases hl : x.mm.pd.lookup a with _ | pte
  · rw [hl] at h
    rcases hd : x.mm.demand (pgRoundDown a) with _ | w
    · rw [hd] at h
      exact absurd rfl h
    · rfl
  · rfl

theorem copyin_done (h : x.Ok X Y N) (hd : d < word) (hread : ∀ i < n, x.reads (d + i) ≠ none)
    (hmem : (x.copyin true d n).1.phys.pmm.failed ≤ x.phys.pmm.failed) :
    (x.copyin true d n).2.2 = true := by
  revert hread hmem
  refine copyinLoop_induct true (P := fun x d n r => (∀ i < n, x.reads (d + i) ≠ none) →
    r.1.phys.pmm.failed ≤ x.phys.pmm.failed → r.2.2 = true) (fun _ _ _ _ _ => rfl) ?_ ?_ h hd le_rfl
  · intro x d n y hok hd hn hp hread hmem
    rcases pin_none hok hd hp with hno | ⟨-,hallow⟩
    · exact absurd hno.failed (Nat.not_lt.mpr hmem)
    · rw [reads_allows (a := d) (hread 0 (pos_of_ne_zero hn))] at hallow
      cases hallow rfl
  · intro x d n y f r hok hd hn hp hpin ih hread hmem
    have hle := (chunk_bounds d hn).2.1
    refine ih (fun i hi => ?_) (hmem.trans ((pin_some hok hd hp).1.paged hok).failed)
    rw [hpin.reads,add_assoc]
    exact hread _ (by omega)

theorem copyin_same (h : x.Ok X Y N) (hd : d < word) : (x.copyin true d n).1.reads = x.reads := by
  refine copyinLoop_induct true (P := fun x _ _ r => r.1.reads = x.reads) (fun _ _ _ => rfl)
    (fun x d n y hok hd _ hp => funext (pin_refused hok hd hp).2.1) ?_ h hd le_rfl
  intro x d n y f r _ _ _ _ hpin ih
  exact ih.trans (funext hpin.reads)

theorem copyin_bytes (bs : List UInt8) (h : x.Ok X Y N) (hd : d < word)
    (hread : ∀ i < bs.length, x.reads (d + i) = some (bs.getD i 0))
    (hmem : (x.copyin true d bs.length).1.phys.pmm.failed ≤ x.phys.pmm.failed) :
    ∃ y, x.copyin true d bs.length = (y,bs,true) ∧ Paged x y X Y N ∧ y.reads = x.reads := by
  have hdone := copyin_done h hd (fun i hi => by rw [hread i hi]; exact Option.some_ne_none _) hmem
  have hbytes := copyin_reads h hd hdone
  have hpaged := copyin_paged true bs.length h hd
  have hsame := copyin_same (n := bs.length) h hd
  rcases hc : x.copyin true d bs.length with ⟨y,cs,b⟩
  rw [hc] at hdone hbytes hpaged hsame
  obtain rfl : b = true := hdone
  have hcs : cs = bs := by
    refine map_injective_iff.mpr (Option.some_injective _) (hbytes.trans ?_)
    refine ext_getElem (by simp) fun i h1 h2 => ?_
    have hi : i < bs.length := by simpa using h1
    simp [hread i hi,hi]
  exact ⟨y,by rw [hcs],hpaged,hsame⟩

theorem copyinstrLoop_paged (h : x.Ok X Y N) :
    Paged x (copyinstrLoop true dst srcva left i x store).1 X Y N := by
  induction left generalizing i x store with
  | zero => exact .refl h
  | succ left ih =>
    have hpaged := copyin_paged true 1 h (Nat.mod_lt (srcva + i) (by decide : 0 < word))
    rw [copyinstrLoop]
    rcases hc : x.copyin true ((srcva + i) % word) 1 with ⟨y,bs,_ | _⟩
    · rw [hc] at hpaged
      exact hpaged
    rw [hc] at hpaged
    dsimp only
    split
    · exact hpaged
    · exact hpaged.trans (ih hpaged.ok)

theorem copyinstrLoop_first (h : x.Ok X Y N)
    (hmem : (copyinstrLoop true dst srcva (left + 1) i x store).1.phys.pmm.failed ≤
      x.phys.pmm.failed) :
    (x.copyin true ((srcva + i) % word) 1).1.phys.pmm.failed ≤ x.phys.pmm.failed := by
  have hok := (copyin_paged true 1 h (Nat.mod_lt (srcva + i) (by decide : 0 < word))).ok
  rw [copyinstrLoop] at hmem
  rcases hc : x.copyin true ((srcva + i) % word) 1 with ⟨y,bs,_ | _⟩
  · rw [hc] at hmem
    exact hmem
  rw [hc] at hmem hok
  dsimp only at hmem
  split at hmem
  · exact hmem
  · exact (copyinstrLoop_paged hok).failed.trans hmem

structure Fetched (x y : Ctx) (X Y N : Nat → Nat) (store store' : Nat → UInt8) (dst i : Nat)
    (str : List UInt8) (b : Bool) : Prop where
  paged : Paged x y X Y N
  same : y.reads = x.reads
  bytes : b = true → ∀ j, i ≤ j → j ≤ str.length → store' (dst + j) = (str ++ [0]).getD j 0
  frame : ∀ c < dst + i, store' c = store c

theorem copyinstrLoop_fetched (h : x.Ok X Y N) (hstr : StringAt x.reads srcva str)
    (hi : i ≤ str.length)
    (hmem : (copyinstrLoop true dst srcva left i x store).1.phys.pmm.failed ≤ x.phys.pmm.failed) :
    ∃ y store', copyinstrLoop true dst srcva left i x store =
        (y,store',decide (str.length < i + left)) ∧
      Fetched x y X Y N store store' dst i str (decide (str.length < i + left)) := by
  induction left generalizing i x store with
  | zero =>
    have hlt : ¬ str.length < i + 0 := by omega
    rw [decide_eq_false hlt]
    exact ⟨x,store,rfl,.refl h,rfl,(fun hb => nomatch hb),fun _ _ => rfl⟩
  | succ left ih =>
    have hbyte := hstr.2 i (by omega)
    have hlt : srcva + i < userEnd := reads_lt (by rw [hbyte]; exact Option.some_ne_none _)
    have hmod : (srcva + i) % word = srcva + i := Nat.mod_eq_of_lt (hlt.trans userEnd_lt)
    have hfirst := copyinstrLoop_first h hmem
    rw [hmod] at hfirst
    obtain ⟨y,hc,hpaged,hsame⟩ := copyin_bytes [(str ++ [0]).getD i 0] h (hlt.trans userEnd_lt)
      (fun j hj => by
        obtain rfl : j = 0 := by simpa using hj
        exact hbyte) hfirst
    rw [length_singleton] at hc
    have hone : [(str ++ [0]).getD i 0].getD 0 0 = (str ++ [0]).getD i 0 := rfl
    rw [copyinstrLoop,hmod,hc] at hmem ⊢
    simp only [hone] at hmem ⊢
    by_cases hend : i = str.length
    · have hzero : (str ++ [0]).getD i 0 = 0 := by simp [hend]
      rw [if_pos hzero,decide_eq_true (by omega)]
      refine ⟨y,_,rfl,hpaged,hsame,fun _ j h1 h2 => ?_,fun c hc => ?_⟩
      · obtain rfl : j = i := by omega
        exact Function.update_self _ _ _
      · exact Function.update_of_ne (ne_of_lt hc) _ _
    have hlen : i < str.length := by omega
    have hne : (str ++ [0]).getD i 0 ≠ 0 := by
      intro he
      rw [getD_append _ _ _ _ hlen,getD_eq_getElem _ _ hlen] at he
      exact hstr.1 (he ▸ getElem_mem hlen)
    rw [if_neg hne] at hmem ⊢
    obtain ⟨z,store',hrest,hf⟩ := ih (i := i + 1) hpaged.ok (by rw [hsame]; exact hstr) (by omega)
      (hmem.trans hpaged.failed)
    have hsum : i + 1 + left = i + (left + 1) := by omega
    rw [hsum] at hrest hf
    refine ⟨z,store',hrest,hpaged.trans hf.paged,hf.same.trans hsame,fun hb j h1 h2 => ?_,
      fun c hc => ?_⟩
    · by_cases hj : j = i
      · subst hj
        rw [hf.frame _ (by omega)]
        exact Function.update_self _ _ _
      · exact hf.bytes hb j (by omega) h2
    · rw [hf.frame c (by omega)]
      exact Function.update_of_ne (ne_of_lt hc) _ _

theorem copyinstr_paged (store : Nat → UInt8) (dst srcva n : Nat) (h : x.Ok X Y N) :
    Paged x (copyinstr x true store dst srcva n).1 X Y N := by
  rw [copyinstr]
  split
  · exact .refl h
  · exact copyinstrLoop_paged h

theorem copyinstr_fetched (h : x.Ok X Y N) (hstr : StringAt x.reads srcva str)
    (hmem : (copyinstr x true store dst srcva nname).1.phys.pmm.failed ≤ x.phys.pmm.failed) :
    ∃ y store', copyinstr x true store dst srcva nname =
        (y,store',decide (str.length + 1 < nname)) ∧
      Fetched x y X Y N store store' dst 0 str (decide (str.length + 1 < nname)) := by
  have hlimit : (str.length < 0 + (nname - 1)) = (str.length + 1 < nname) := by
    simp only [nname,eq_iff_iff]
    omega
  rw [copyinstr,if_neg (by decide)] at hmem ⊢
  have hf := copyinstrLoop_fetched h hstr (Nat.zero_le _) hmem
  simp only [hlimit] at hf
  exact hf

theorem u32At_le32 (hn : n < word) : u32At (le32 n) 0 = n := by
  simp only [u32At,u16At,byteAt,le32,getD_cons_zero,getD_cons_succ,UInt8.toNat_ofNat',word] at *
  omega

theorem copyUserStrvecLoop_paged (h : x.Ok X Y N) :
    Paged x (copyUserStrvecLoop true uvec left n x store ptrs).ctx X Y N := by
  induction left generalizing n x store ptrs with
  | zero => exact .refl h
  | succ left ih =>
    have hpaged := copyin_paged true 4 h (Nat.mod_lt (uvec + n * 4) (by decide : 0 < word))
    rw [copyUserStrvecLoop]
    rcases hc : x.copyin true ((uvec + n * 4) % word) 4 with ⟨y,bs,_ | _⟩
    · rw [hc] at hpaged
      exact hpaged
    rw [hc] at hpaged
    dsimp only
    split
    · exact hpaged
    have hstr := copyinstr_paged store (n * nname) (u32At bs 0) nname hpaged.ok
    rcases hs : copyinstr y true store (n * nname) (u32At bs 0) nname with ⟨z,store',_ | _⟩
    · rw [hs] at hstr
      exact hpaged.trans hstr
    · rw [hs] at hstr
      exact (hpaged.trans hstr).trans (ih hstr.ok)

theorem copyUserStrvecLoop_first (h : x.Ok X Y N)
    (hmem : (copyUserStrvecLoop true uvec (left + 1) n x store ptrs).ctx.phys.pmm.failed ≤
      x.phys.pmm.failed) :
    (x.copyin true ((uvec + n * 4) % word) 4).1.phys.pmm.failed ≤ x.phys.pmm.failed := by
  have hok := (copyin_paged true 4 h (Nat.mod_lt (uvec + n * 4) (by decide : 0 < word))).ok
  rw [copyUserStrvecLoop] at hmem
  rcases hc : x.copyin true ((uvec + n * 4) % word) 4 with ⟨y,bs,_ | _⟩
  · rw [hc] at hmem
    exact hmem
  rw [hc] at hmem hok
  dsimp only at hmem
  split at hmem
  · exact hmem
  have hstr := copyinstr_paged store (n * nname) (u32At bs 0) nname hok
  rcases hs : copyinstr y true store (n * nname) (u32At bs 0) nname with ⟨z,store',_ | _⟩
  · rw [hs] at hstr hmem
    exact hstr.failed.trans hmem
  · rw [hs] at hstr hmem
    exact (hstr.failed.trans (copyUserStrvecLoop_paged hstr.ok).failed).trans hmem

structure Appended (r : Result) (store : Nat → UInt8) (ptrs : List (Option Nat)) (n : Nat)
    (es : List (Nat × List UInt8)) : Prop where
  ret : r.ret = some (n + es.length)
  ptrs : r.ptrs = ptrs ++ (List.range es.length).map (fun i => some ((n + i) * nname)) ++ [none]
  bytes : ∀ i e, es[i]? = some e → ∀ j ≤ e.2.length,
    r.store ((n + i) * nname + j) = (e.2 ++ [0]).getD j 0
  frame : ∀ c < n * nname, r.store c = store c

theorem Appended.cons {r : Result} {store' : Nat → UInt8} {e : Nat × List UInt8}
    (h : Appended r store' (ptrs ++ [some (n * nname)]) (n + 1) es)
    (hbytes : ∀ j ≤ e.2.length, store' (n * nname + j) = (e.2 ++ [0]).getD j 0)
    (hframe : ∀ c < n * nname, store' c = store c) (hlen : e.2.length + 1 < nname) :
    Appended r store ptrs n (e :: es) := by
  have hnext : (n + 1) * nname = n * nname + nname := Nat.succ_mul n nname
  refine ⟨?_,?_,fun i e' hi j hj => ?_,fun c hc => ?_⟩
  · rw [h.ret,length_cons]
    congr 1
    omega
  · have hshift : (range es.length).map (fun i => some ((n + 1 + i) * nname)) =
        (range es.length).map ((fun i => some ((n + i) * nname)) ∘ Nat.succ) := by
      refine map_congr_left fun i _ => ?_
      rw [Function.comp_apply,show n + 1 + i = n + i.succ by omega]
    rw [h.ptrs,hshift,length_cons,range_succ_eq_map,map_cons,map_map,add_zero,append_assoc ptrs,
      singleton_append]
  · cases i with
    | zero =>
      obtain rfl := Option.some.inj hi
      rw [add_zero,h.frame _ (by omega)]
      exact hbytes j hj
    | succ i =>
      rw [← h.bytes i e' hi j hj,show n + 1 + i = n + (i + 1) by omega]
  · rw [h.frame c (by omega)]
    exact hframe c hc

theorem copyUserStrvecLoop_appended (h : x.Ok X Y N) (hvec : VectorAt x.reads (uvec + n * 4) es)
    (hmem : (copyUserStrvecLoop true uvec left n x store ptrs).ctx.phys.pmm.failed ≤
      x.phys.pmm.failed) :
    (es.length < left ∧ (∀ e ∈ es, e.2.length + 1 < nname) →
        Appended (copyUserStrvecLoop true uvec left n x store ptrs) store ptrs n es) ∧
      (¬ (es.length < left ∧ ∀ e ∈ es, e.2.length + 1 < nname) →
        (copyUserStrvecLoop true uvec left n x store ptrs).ret = none) := by
  induction left generalizing n x store ptrs es with
  | zero => exact ⟨fun hgood => absurd hgood.1 (Nat.not_lt_zero _),fun _ => rfl⟩
  | succ left ih =>
    obtain ⟨p,hword,hlt⟩ : ∃ p, WordAt x.reads (uvec + n * 4) p ∧ p < word ∧
        p = (es.head?.map Prod.fst).getD 0 := by
      cases es with
      | nil => exact ⟨0,hvec,by decide,rfl⟩
      | cons e es =>
        have hread := hvec.2.2.1.2 0 (Nat.succ_pos _)
        refine ⟨e.1,hvec.1,(reads_lt (x := x) ?_).trans userEnd_lt,rfl⟩
        exact fun hno => nomatch hno.symm.trans hread
    obtain ⟨hlt,hp⟩ := hlt
    have haddr : uvec + n * 4 < word :=
      (reads_lt (x := x) fun hno => nomatch hno.symm.trans (hword 0 (by decide))).trans userEnd_lt
    have hfirst := copyUserStrvecLoop_first h hmem
    rw [Nat.mod_eq_of_lt haddr] at hfirst
    obtain ⟨y,hc,hpaged,hsame⟩ := copyin_bytes (le32 p) h haddr hword hfirst
    rw [show (le32 p).length = 4 from rfl] at hc
    simp only [copyUserStrvecLoop,Nat.mod_eq_of_lt haddr,hc,u32At_le32 hlt] at hmem ⊢
    replace hmem := hmem.trans hpaged.failed
    cases es with
    | nil =>
      rw [show p = 0 from hp,if_pos rfl]
      refine ⟨fun _ => ⟨rfl,by simp,(fun i e hi => nomatch hi),fun _ _ => rfl⟩,fun hbad => ?_⟩
      exact absurd ⟨Nat.succ_pos left,fun e he => nomatch he⟩ hbad
    | cons e es =>
      obtain ⟨-,hne,hstr,hrest⟩ := hvec
      obtain rfl : p = e.1 := hp
      rw [if_neg hne] at hmem ⊢
      have hstr' : StringAt y.reads e.1 e.2 := by rwa [hsame]
      have hfetch : (copyinstr y true store (n * nname) e.1 nname).1.phys.pmm.failed ≤
          y.phys.pmm.failed := by
        have hstr := copyinstr_paged store (n * nname) e.1 nname hpaged.ok
        rcases hs : copyinstr y true store (n * nname) e.1 nname with ⟨z,store',_ | _⟩
        · rw [hs] at hmem
          exact hmem
        · rw [hs] at hmem hstr
          exact (copyUserStrvecLoop_paged hstr.ok).failed.trans hmem
      obtain ⟨z,store',hs,hf⟩ := copyinstr_fetched hpaged.ok hstr' hfetch
      rw [hs] at hmem ⊢
      by_cases hlen : e.2.length + 1 < nname
      · rw [decide_eq_true hlen] at hmem hf ⊢
        dsimp only at hmem ⊢
        have hrest' : VectorAt z.reads (uvec + (n + 1) * 4) es := by
          rw [hf.same,hsame,show uvec + (n + 1) * 4 = uvec + n * 4 + 4 by omega]
          exact hrest
        obtain ⟨hgood,hbad⟩ := ih hf.paged.ok hrest' (hmem.trans hf.paged.failed)
        refine ⟨fun hall => ?_,fun hno => hbad fun hall => hno ?_⟩
        · refine (hgood ⟨Nat.lt_of_succ_lt_succ hall.1,fun e' he' =>
            hall.2 e' (mem_cons_of_mem e he')⟩).cons ?_ ?_ hlen
          · exact fun j hj => hf.bytes rfl j (Nat.zero_le j) hj
          · exact fun c hc => hf.frame c (hc.trans_le (Nat.le_add_right _ _))
        · exact ⟨Nat.succ_lt_succ hall.1,forall_mem_cons.mpr ⟨hlen,hall.2⟩⟩
      · rw [decide_eq_false hlen]
        exact ⟨fun hall => absurd (hall.2 e mem_cons_self) hlen,fun _ => rfl⟩

structure Copied (r : Result) (strs : List (List UInt8)) : Prop where
  ret : r.ret = some strs.length
  ptrs : r.ptrs = (List.range strs.length).map (fun i => some (i * nname)) ++ [none]
  bytes : ∀ i str, strs[i]? = some str → ∀ j ≤ str.length,
    r.store (i * nname + j) = (str ++ [0]).getD j 0

theorem strvec_copied_iff (x : Ctx) (X Y N : Nat → Nat) (store : Nat → UInt8) (uvec max : Nat)
    (es : List (Nat × List UInt8)) (h : x.Ok X Y N) (hnull : uvec ≠ 0)
    (hvec : VectorAt x.reads uvec es)
    (hmem : (copyUserStrvec x true store uvec max).ctx.phys.pmm.failed = x.phys.pmm.failed) :
    (Copied (copyUserStrvec x true store uvec max) (es.map Prod.snd) ↔
        es.length < max ∧ ∀ e ∈ es, e.2.length + 1 < nname) ∧
      ((copyUserStrvec x true store uvec max).ret = none ↔
        ¬ (es.length < max ∧ ∀ e ∈ es, e.2.length + 1 < nname)) := by
  rw [copyUserStrvec,if_neg hnull] at hmem ⊢
  have hvec' : VectorAt x.reads (uvec + 0 * 4) es := by rwa [zero_mul,add_zero]
  obtain ⟨hgood,hbad⟩ := copyUserStrvecLoop_appended h hvec' hmem.le
  refine ⟨⟨fun hc => ?_,fun hall => ?_⟩,⟨fun hnone hall => ?_,hbad⟩⟩
  · by_contra hno
    exact nomatch (hbad hno).symm.trans hc.ret
  · have ha := hgood hall
    refine ⟨?_,?_,fun i str hi j hj => ?_⟩
    · rw [ha.ret,length_map,zero_add]
    · rw [ha.ptrs,length_map,nil_append]
      simp only [zero_add]
    · rw [getElem?_map] at hi
      obtain ⟨e,he,rfl⟩ := Option.map_eq_some_iff.mp hi
      rw [← ha.bytes i e he j hj,zero_add]
  · exact nomatch hnone.symm.trans (hgood hall).ret

open Kernel

theorem exists_holding (text : List UInt8) (P : Kernel → Mm → Prop) [∀ k, DecidablePred (P k)]
    (h : ((boot 0x102000 0x180000 (fun _ _ => 0) fun _ => none).bind
      (·.runOps [.kthreadCreate,.execve 1 true text [] [] []])).any
        (fun k => (k.current 1).any fun mm => P k mm) = true) :
    ∃ k mm, k.Inv ∧ k.current 1 = some mm ∧ P k mm := by
  obtain ⟨k₀,k,mm,hb,hr,hc,ht⟩ := exists_current _ _ P h
  exact ⟨k,mm,inv_run (boot_inv supervisor_empty hb) hr,hc,ht⟩

theorem strvec_copied_iff_one : ∃ (k : Kernel) (mm : Mm), k.Inv ∧ k.current 1 = some mm ∧
    VectorAt (k.ctx mm).reads 0x400000 [(0x400008,[97])] ∧
      Copied (copyUserStrvec (k.ctx mm) true (fun _ => 0) 0x400000 maxArg) [[97]] := by
  obtain ⟨k,mm,hinv,hc,ht⟩ := exists_holding ([0x400008,0].flatMap le32 ++ [97,0])
    (fun k mm => VectorAt (k.ctx mm).reads 0x400000 [(0x400008,[97])] ∧
      (copyUserStrvec (k.ctx mm) true (fun _ => 0) 0x400000 maxArg).ctx.phys.pmm.failed =
        (k.ctx mm).phys.pmm.failed) (by decide +kernel)
  obtain ⟨hiff,-⟩ := strvec_copied_iff (k.ctx mm) _ _ _ (fun _ => 0) 0x400000 maxArg
    [(0x400008,[97])] (hinv.ctxOk hc) (by decide) ht.1 ht.2
  exact ⟨k,mm,hinv,hc,ht.1,hiff.mpr (by decide)⟩

theorem strvec_limits_refused : ∃ (k : Kernel) (mm : Mm), k.Inv ∧ k.current 1 = some mm ∧
    VectorAt (k.ctx mm).reads 0x400000 (List.replicate maxArg (0x400084,[])) ∧
    (copyUserStrvec (k.ctx mm) true (fun _ => 0) 0x400000 maxArg).ret = none ∧
    (copyUserStrvec (k.ctx mm) true (fun _ => 0) 0x400000 maxArg).ctx.phys.pmm.failed =
      (k.ctx mm).phys.pmm.failed ∧
    VectorAt (k.ctx mm).reads 0x400085 [(0x40008d,List.replicate (nname - 1) 97)] ∧
    (copyUserStrvec (k.ctx mm) true (fun _ => 0) 0x400085 maxArg).ret = none ∧
    (copyUserStrvec (k.ctx mm) true (fun _ => 0) 0x400085 maxArg).ctx.phys.pmm.failed =
      (k.ctx mm).phys.pmm.failed := by
  exact exists_holding ((replicate maxArg 0x400084).flatMap le32 ++ le32 0 ++ [0] ++
      [0x40008d,0].flatMap le32 ++ replicate (nname - 1) 97 ++ [0]) _ (by decide +kernel)

end TinyOs.Strvec
