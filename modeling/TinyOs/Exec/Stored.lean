import TinyOs.Exec.Bytes

namespace TinyOs

open List Option

namespace Space

variable {s : Space} {X Y : Nat → Nat} {a d : Nat} {bs : List UInt8}

def Holds (s : Space) (d : Nat) (bs : List UInt8) : Prop :=
  ∀ i < bs.length, s.byte (d + i) = some (bs.getD i 0)

theorem byte_write {pte : Pte} (bs : List UInt8) (hs : s.Sole X) (hwf : s.pd.Wf)
    (hl : s.pd.lookup d = some pte)
    (hd : d < userEnd) (hfit : d % pgSize + bs.length ≤ pgSize) (ha : a < userEnd) :
    ({ s with phys := s.phys.writeBytes pte.frame (d % pgSize) bs } : Space).byte a =
      if d ≤ a ∧ a < d + bs.length then some (bs.getD (a - d) 0) else s.byte a := by
  by_cases hpage : a / pgSize = d / pgSize
  · have hla : s.pd.lookup a = some pte := by
      rw [← hl]
      exact Pgdir.lookup_eq_of_page (hd.trans userEnd_lt) (ha.trans userEnd_lt) hpage
    have hiff : (d % pgSize ≤ a % pgSize ∧ a % pgSize < d % pgSize + bs.length) ↔
        d ≤ a ∧ a < d + bs.length := by
      simp only [pgSize] at *
      omega
    rw [byte,hla,byte,hla]
    simp only [Phys.writeBytes,Function.update_self,map_some,hiff]
    split
    · have hsub : a % pgSize - d % pgSize = a - d := by
        simp only [pgSize] at *
        omega
      rw [hsub]
    · rfl
  · have hout : ¬ (d ≤ a ∧ a < d + bs.length) := by
      simp only [pgSize] at *
      omega
    rw [if_neg hout,byte,byte]
    cases hla : s.pd.lookup a with
    | none => rfl
    | some q =>
      have hne : q.frame ≠ pte.frame := fun he => hpage (hs.page_eq hwf ha hd hla hl he)
      simp only [Phys.writeBytes,map_some,Function.update_of_ne hne]

end Space

namespace Ctx

open Space

variable {x y z : Ctx} {X Y : Nat → Nat} {d e lo hi mid fuel : Nat} {src bs : List UInt8}

def Mapped (x : Ctx) (lo hi : Nat) : Prop := ∀ a, lo ≤ a → a < hi → x.mm.pd.lookup a ≠ none

structure Stored (x y : Ctx) (X Y : Nat → Nat) (lo hi : Nat) : Prop where
  written : Written x y X Y
  frame : ∀ a < userEnd, a < lo ∨ hi ≤ a → y.space.byte a = x.space.byte a

namespace Stored

theorem refl (h : x.space.Ok X Y) (hs : x.space.Sole X) : Stored x x X Y lo hi :=
  ⟨.refl h hs,fun _ _ _ => rfl⟩

theorem trans (h : Stored x y X Y lo hi) (h' : Stored y z X Y lo hi) : Stored x z X Y lo hi :=
  ⟨h.written.trans h'.written,fun a ha hout => (h'.frame a ha hout).trans (h.frame a ha hout)⟩

theorem mono (h : Stored x y X Y d e) (hlo : lo ≤ d) (hhi : e ≤ hi) : Stored x y X Y lo hi :=
  ⟨h.written,fun a ha hout => h.frame a ha (by omega)⟩

theorem ok (h : Stored x y X Y lo hi) : y.space.Ok X Y := h.written.loaded.ok

theorem sole (h : Stored x y X Y lo hi) : y.space.Sole X := h.written.loaded.sole

theorem mapped (h : Stored x y X Y lo hi) (hm : x.Mapped d e) : y.Mapped d e := by
  intro a hlo hhi
  rw [h.written.mm]
  exact hm a hlo hhi

theorem holds (h : Stored x y X Y lo hi) (hx : x.space.Holds d bs)
    (hout : d + bs.length ≤ lo ∨ hi ≤ d) (hend : d + bs.length ≤ userEnd) : y.space.Holds d bs := by
  intro i hi
  rw [h.frame (d + i) (by omega) (by omega)]
  exact hx i hi

end Stored

theorem pin_mapped {pte : Pte} (h : x.space.Ok X Y) (hs : x.space.Sole X) (hd : d < userEnd)
    (hl : x.mm.pd.lookup d = some pte) : x.pin false d true = (x,some pte.frame) := by
  have hdw : d < word := hd.trans userEnd_lt
  have hwf : x.mm.pd.Wf := h.wf
  have hlook := x.mm.pd.lookup_pgRoundDown hdw
  have hcow := (hs d hd pte hl).2
  have hensure : x.ensureUserPage false (pgRoundDown d) true = (x,true) := by
    simp [ensureUserPage,pgRoundDown_of_mod (pgRoundDown_mod d),hlook,hl,hcow]
  simp only [pin,hensure,Pgdir.walkaddr_eq hwf (pgRoundDown_lt_word hdw),hlook,hl,
    if_pos (pgRoundDown_lt_userEnd.mpr hd),map_some]

theorem copyoutLoop_stored (h : x.space.Ok X Y) (hs : x.space.Sole X)
    (hend : d + src.length ≤ userEnd) (hmap : x.Mapped d (d + src.length))
    (hfuel : src.length ≤ fuel) :
    ∃ y, copyoutLoop false fuel x d src = (y,true) ∧ Stored x y X Y d (d + src.length) ∧
      y.space.Holds d src := by
  induction fuel generalizing x d src with
  | zero =>
    obtain rfl := length_eq_zero_iff.mp (Nat.le_zero.mp hfuel)
    exact ⟨x,rfl,.refl h hs,fun i hi => absurd hi (Nat.not_lt_zero i)⟩
  | succ fuel ih =>
    by_cases hn : src = []
    · subst hn
      exact ⟨x,by simp only [copyoutLoop,if_true],.refl h hs,
        fun i hi => absurd hi (Nat.not_lt_zero i)⟩
    have hlen : src.length ≠ 0 := by simpa using hn
    have hd : d < userEnd := by omega
    obtain ⟨pte,hl⟩ := ne_none_iff_exists'.mp (hmap d le_rfl (by omega))
    obtain ⟨hpos,hle,hfit,-⟩ := chunk_bounds d hlen
    rw [copyoutLoop_succ hn,pin_mapped h hs hd hl]
    generalize chunk d src.length = c at hpos hle hfit
    have htake : (src.take c).length = c := by
      rw [length_take]
      omega
    have hdrop : (src.drop c).length = src.length - c := length_drop
    obtain ⟨y,hy⟩ : ∃ y : Ctx, y =
        { x with phys := x.phys.writeBytes pte.frame (d % pgSize) (src.take c) } := ⟨_,rfl⟩
    have hbyte : ∀ a < userEnd, y.space.byte a =
        if d ≤ a ∧ a < d + c then some ((src.take c).getD (a - d) 0) else x.space.byte a := by
      intro a ha
      have hb := byte_write (src.take c) hs h.wf hl hd (by rw [htake]; exact hfit) ha
      rw [htake] at hb
      rw [hy]
      exact hb
    have hwrite : Written x y X Y := by
      rw [hy]
      exact ⟨(Loaded.refl h hs).write hd hl,rfl,rfl⟩
    have hmod : (d + c) % word = d + c := Nat.mod_eq_of_lt (by have := userEnd_lt; omega)
    have hmapped : y.Mapped (d + c) (d + c + (src.drop c).length) := by
      intro a hlo hhi
      rw [hwrite.mm]
      exact hmap a (by omega) (by omega)
    obtain ⟨z,hz,hst,hholds⟩ := ih (x := y) (d := d + c)
      hwrite.loaded.ok hwrite.loaded.sole (by omega) hmapped (by omega)
    refine ⟨z,?_,⟨hwrite.trans hst.written,fun a ha hout => ?_⟩,fun i hi => ?_⟩
    · simp only [hmod,← hy]
      exact hz
    · rw [hst.frame a ha (by omega),hbyte a ha,if_neg (by omega)]
    by_cases hc : i < c
    · rw [hst.frame (d + i) (by omega) (by omega),hbyte _ (by omega),if_pos (by omega),
        Nat.add_sub_cancel_left,getD_eq_getElem?_getD,getD_eq_getElem?_getD,getElem?_take_of_lt hc]
    have hrest := hholds (i - c) (by omega)
    rw [show d + c + (i - c) = d + i by omega,getD_eq_getElem?_getD,getElem?_drop,
      show c + (i - c) = i by omega] at hrest
    rw [hrest,getD_eq_getElem?_getD]

theorem copyout_stored (src : List UInt8) (h : x.space.Ok X Y) (hs : x.space.Sole X)
    (hend : d + src.length ≤ userEnd) (hmap : x.Mapped d (d + src.length)) :
    ∃ y, x.copyout false d src = (y,true) ∧ Stored x y X Y d (d + src.length) ∧
      y.space.Holds d src :=
  copyoutLoop_stored h hs hend hmap le_rfl

end Ctx

end TinyOs
