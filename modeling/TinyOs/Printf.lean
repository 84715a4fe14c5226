import Mathlib.Data.Nat.Digits.Lemmas

namespace TinyOs.Printf

open List Option
open Function (update update_of_ne update_self)

variable {base : Nat}

abbrev Word := BitVec 32

inductive Arg where
  | int (v : Word)
  | str (s : Option (List Char))

def digit (d : Nat) : Char := "0123456789abcdef".toList.getD d '?'

def padTo (width len : Int) (pad : Char) : List Char := replicate (width - len).toNat pad

def digitLoop (base : Nat) : Nat → Nat → List Char
  | 0, _ => []
  | n + 1, x => digit (x % base) :: if x / base = 0 then [] else digitLoop base n (x / base)

def printintTo (xx : Word) (base : Nat) (sign : Bool) (width : Int) (zeropad : Bool) : List Char :=
  let neg := sign && decide (xx.toInt < 0)
  let x := if neg then -(xx + 1) + 1 else xx
  let buf := digitLoop base 16 x.toNat
  let minus := if neg then ['-'] else []
  let len := (buf.length : Int) + minus.length
  (if zeropad then minus ++ padTo width len '0' else padTo width len ' ' ++ minus) ++ buf.reverse

def printptrTo (x : Word) : List Char :=
  ['0','x'] ++ (range 8).map fun i => digit (x <<< (4 * i) >>> 28).toNat

def widthLoop : List Char → Word → Word × List Char
  | [], width => (width,[])
  | c :: fmt, width =>
    if c.isDigit then widthLoop fmt (width * 10 + BitVec.ofNat 32 (c.toNat - 48)) else (width,c :: fmt)

def nextInt (ap : List Arg) (f : Word → List Char) : Option (List Char × List Arg) :=
  match ap with
  | .int v :: ap => some (f v,ap)
  | _ => none

def convert (c : Char) (width : Int) (zeropad : Bool) (ap : List Arg) :
    Option (List Char × List Arg) :=
  match c with
  | 'c' => nextInt ap fun v => padTo width 1 ' ' ++ [Char.ofNat (v.toNat % 256)]
  | 'o' => nextInt ap fun v => printintTo v 8 true width zeropad
  | 'd' | 'i' => nextInt ap fun v => printintTo v 10 true width zeropad
  | 'u' => nextInt ap fun v => printintTo v 10 false width zeropad
  | 'x' => nextInt ap fun v => printintTo v 16 false width zeropad
  | 'p' => nextInt ap printptrTo
  | 's' =>
    match ap with
    | .str s :: ap =>
      let s := s.getD "(null)".toList
      some (padTo width s.length ' ' ++ s,ap)
    | _ => none
  | '%' => some (['%'],ap)
  | _ => some (['%',c],ap)

def convertLong (c2 : Option Char) (width : Int) (zeropad : Bool) (ap : List Arg) :
    Option (List Char × List Arg) :=
  match c2 with
  | some 'd' => nextInt ap fun v => printintTo v 10 true width zeropad
  | some 'x' => nextInt ap fun v => printintTo v 16 true width zeropad
  | _ => some (['l'],ap)

def vprintfLoop : Nat → List Char → List Arg → Option (List Char)
  | _, [], _ => some []
  | 0, _ :: _, _ => none
  | n + 1, c :: fmt, ap =>
    if c ≠ '%' then (vprintfLoop n fmt ap).map (c :: ·)
    else
      let zeropad := fmt.head? = some '0'
      match widthLoop (if zeropad then fmt.tail else fmt) 0 with
      | (_,[]) => some []
      | (width,c :: fmt) =>
        if c = 'l' then
          (convertLong fmt.head? width.toInt zeropad ap).bind fun r =>
            (vprintfLoop n (if fmt.head? = some 'd' ∨ fmt.head? = some 'x' then fmt.tail else fmt)
              r.2).map (r.1 ++ ·)
        else
          (convert c width.toInt zeropad ap).bind fun r => (vprintfLoop n fmt r.2).map (r.1 ++ ·)

def vprintfTo {σ : Type} (put : σ → Char → σ) (arg : σ) (fmt : List Char) (ap : List Arg) :
    Option σ :=
  (vprintfLoop fmt.length fmt ap).map (·.foldl put arg)

structure Snbuf where
  buf : Option (Nat → Char)
  size : Nat
  len : Nat

def snPutc (b : Snbuf) (c : Char) : Snbuf :=
  { b with
    buf := b.buf.map fun m =>
      if 0 < b.size ∧ (b.len + 1) % 2 ^ 32 < b.size then update m b.len c else m
    len := (b.len + 1) % 2 ^ 32 }

def vsnprintf (buf : Option (Nat → Char)) (size : Nat) (fmt : List Char) (ap : List Arg) :
    Option (Option (Nat → Char) × Int) :=
  (vprintfTo snPutc ⟨buf,size,0⟩ fmt ap).map fun b =>
    (b.buf.map fun m =>
      if 0 < size then update m (if b.len < size then b.len else size - 1) '\x00' else m,
      (BitVec.ofNat 32 b.len).toInt)

inductive Field where
  | d (v : Word)
  | u (v : Word)
  | x (v : Word)
  | c (v : Word)
  | s (str : Option (List Char))
  | percent

namespace Field

def letter : Field → Char
  | d _ => 'd'
  | u _ => 'u'
  | x _ => 'x'
  | c _ => 'c'
  | s _ => 's'
  | percent => '%'

def args : Field → List Arg
  | d v | u v | x v | c v => [.int v]
  | s str => [.str str]
  | percent => []

def expand (zero : Bool) (width : Nat) : Field → List Char
  | d v => printintTo v 10 true width zero
  | u v => printintTo v 10 false width zero
  | x v => printintTo v 16 false width zero
  | c v => replicate (width - 1) ' ' ++ [Char.ofNat (v.toNat % 256)]
  | s str => replicate (width - (str.getD "(null)".toList).length) ' ' ++ str.getD "(null)".toList
  | percent => ['%']

end Field

inductive Piece where
  | text (c : Char)
  | conv (zero : Bool) (width : Nat) (f : Field)

variable {ps : List Piece}

namespace Piece

def format : Piece → List Char
  | text c => [c]
  | conv zero width f =>
    '%' :: ((if zero then ['0'] else []) ++ ((Nat.digits 10 width).reverse.map digit ++ [f.letter]))

def args : Piece → List Arg
  | text _ => []
  | conv _ _ f => f.args

def expand : Piece → List Char
  | text c => [c]
  | conv zero width f => f.expand zero width

def Ok : Piece → Prop
  | text c => c ≠ '%' ∧ c ≠ '\x00'
  | conv _ width _ => width < 2 ^ 31

end Piece

def digitValue (c : Char) : Nat := c.toNat - if c.isDigit then 48 else 87

theorem digit_spec : ∀ d < 16, digitValue (digit d) = d ∧ ((digit d).isDigit = true ↔ d < 10) ∧
    digit d ≠ ' ' ∧ digit d ≠ '-' ∧ (digit d = '0' → d = 0) := by
  decide

theorem widthLoop_digits {ds : List Nat} (h : ∀ d ∈ ds, d < 10) {c : Char} (hc : c.isDigit = false)
    (fmt : List Char) (a : Word) : widthLoop (ds.map digit ++ c :: fmt) a =
      (ds.foldl (fun a d => a * 10 + BitVec.ofNat 32 d) a,c :: fmt) := by
  induction ds generalizing a with
  | nil => simp [widthLoop,hc]
  | cons d ds ih =>
    have hd := h d mem_cons_self
    obtain ⟨hval,hdigit,-⟩ := digit_spec d (by omega)
    rw [digitValue,if_pos (hdigit.mpr hd)] at hval
    rw [map_cons,cons_append,widthLoop,if_pos (hdigit.mpr hd),hval,
      ih fun x hx => h x (mem_cons_of_mem d hx)]
    rfl

theorem foldl_digits (width : Nat) :
    (Nat.digits 10 width).reverse.foldl (fun a d => a * 10 + BitVec.ofNat 32 d) (0 : Word) =
      BitVec.ofNat 32 width := by
  have h : ∀ ds : List Nat, ds.foldr (fun d a => a * 10 + BitVec.ofNat 32 d) (0 : Word) =
      BitVec.ofNat 32 (Nat.ofDigits 10 ds) := by
    intro ds
    induction ds with
    | nil => rfl
    | cons d ds ih =>
      rw [foldr_cons,ih,Nat.ofDigits_cons]
      apply BitVec.eq_of_toNat_eq
      simp
      omega
  rw [foldl_reverse,h,Nat.ofDigits_digits]

theorem letter_spec (f : Field) :
    f.letter.isDigit = false ∧ f.letter ≠ '0' ∧ f.letter ≠ 'l' := by
  cases f <;> simp [Field.letter,Char.isDigit]

theorem convert_field (zero : Bool) (width : Nat) (f : Field) (ap : List Arg) :
    convert f.letter width zero (f.args ++ ap) = some (f.expand zero width,ap) := by
  cases f with
  | c v =>
    have h : ((width : Int) - 1).toNat = width - 1 := by omega
    change some (replicate ((width : Int) - 1).toNat ' ' ++ _,ap) = _
    rw [h]
    rfl
  | s str =>
    have h : ((width : Int) - ((str.getD "(null)".toList).length : Int)).toNat =
      width - (str.getD "(null)".toList).length := by omega
    change some (replicate ((width : Int) - _).toNat ' ' ++ _,ap) = _
    rw [h]
    rfl
  | _ => rfl

theorem head_width (width : Nat) {c : Char} (hc : c ≠ '0') (fmt : List Char) :
    ((Nat.digits 10 width).reverse.map digit ++ c :: fmt).head? ≠ some '0' := by
  cases hrev : (Nat.digits 10 width).reverse with
  | nil => simpa using hc
  | cons d ds =>
    have hdigits : Nat.digits 10 width = ds.reverse ++ [d] := by
      rw [← reverse_reverse (Nat.digits 10 width),hrev,reverse_cons]
    have hw : width ≠ 0 := by
      rintro rfl
      simp at hdigits
    have hd : d < 10 := Nat.digits_lt_base (by decide) (hdigits ▸ mem_append_right _ mem_cons_self)
    have hne : d ≠ 0 := by
      have hlast := Nat.getLast_digit_ne_zero 10 hw
      simpa [hdigits] using hlast
    rw [map_cons,cons_append,head?_cons]
    exact fun heq => hne ((digit_spec d (by omega)).2.2.2.2 (some.inj heq))

theorem vprintfLoop_piece {p : Piece} (hp : p.Ok) (n : Nat) (fmt : List Char) (ap : List Arg) :
    vprintfLoop (n + 1) (p.format ++ fmt) (p.args ++ ap) =
      (vprintfLoop n fmt ap).map (p.expand ++ ·) := by
  cases p with
  | text c =>
    simp only [Piece.format,Piece.args,Piece.expand,singleton_append,nil_append,vprintfLoop]
    exact if_pos hp.1
  | conv zero width f =>
    obtain ⟨hdigit,hzero,hlong⟩ := letter_spec f
    have hhead := head_width width hzero fmt
    have hlt : ∀ d ∈ (Nat.digits 10 width).reverse, d < 10 :=
      fun d hd => Nat.digits_lt_base (by decide) (mem_reverse.mp hd)
    have hloop := widthLoop_digits hlt hdigit fmt 0
    rw [foldl_digits] at hloop
    have hint : (BitVec.ofNat 32 width).toInt = width := by
      have hw : width < 2 ^ 31 := hp
      have hnat : (BitVec.ofNat 32 width).toNat = width := Nat.mod_eq_of_lt (by omega)
      rw [BitVec.toInt_eq_toNat_of_lt (by omega),hnat]
    have hfmt : (Piece.conv zero width f).format ++ fmt = '%' :: ((if zero then ['0'] else []) ++
        ((Nat.digits 10 width).reverse.map digit ++ f.letter :: fmt)) := by
      simp [Piece.format]
    rw [hfmt]
    cases zero with
    | true =>
      simp only [if_true,singleton_append,vprintfLoop,head?_cons,tail_cons,ne_eq,not_true,if_false,
        hloop,if_neg hlong,hint,Piece.args,decide_true,convert_field,bind_some]
      rfl
    | false =>
      simp only [Bool.false_eq_true,if_false,nil_append,vprintfLoop,ne_eq,not_true,hhead,hloop,
        if_neg hlong,hint,Piece.args,decide_false,convert_field,bind_some]
      rfl

theorem vprintfLoop_pieces (hps : ∀ p ∈ ps, p.Ok) {n : Nat} (hn : ps.length ≤ n) :
    vprintfLoop n (ps.flatMap Piece.format) (ps.flatMap Piece.args) =
      some (ps.flatMap Piece.expand) := by
  induction ps generalizing n with
  | nil => cases n <;> rfl
  | cons p ps ih =>
    cases n with
    | zero => exact absurd hn (Nat.not_succ_le_zero _)
    | succ n =>
      rw [flatMap_cons,flatMap_cons,vprintfLoop_piece (hps p mem_cons_self),
        ih (fun q hq => hps q (mem_cons_of_mem p hq)) (Nat.le_of_succ_le_succ hn)]
      rfl

theorem vprintfTo_pieces (hps : ∀ p ∈ ps, p.Ok) {σ : Type} (put : σ → Char → σ)
    (arg : σ) : vprintfTo put arg (ps.flatMap Piece.format) (ps.flatMap Piece.args) =
      some ((ps.flatMap Piece.expand).foldl put arg) := by
  have hlen : ps.length ≤ (ps.flatMap Piece.format).length := by
    rw [length_flatMap]
    refine le_trans ?_ (List.length_le_sum_of_one_le _ fun n hn => ?_)
    · rw [length_map]
    · obtain ⟨p,-,rfl⟩ := mem_map.mp hn
      cases p <;> simp [Piece.format]
  rw [vprintfTo,vprintfLoop_pieces hps hlen]
  rfl

theorem foldl_snPutc (text : List Char) (m : Nat → Char) (size k : Nat)
    (hk : k + text.length < 2 ^ 32) :
    ∃ m', text.foldl snPutc ⟨some m,size,k⟩ = ⟨some m',size,k + text.length⟩ ∧
      ∀ i, m' i = if k ≤ i ∧ i + 1 < size then text.getD (i - k) (m i) else m i := by
  induction text generalizing m k with
  | nil => exact ⟨m,rfl,fun i => by simp⟩
  | cons c text ih =>
    rw [length_cons] at hk ⊢
    have hlen : (k + 1) % 2 ^ 32 = k + 1 := Nat.mod_eq_of_lt (by omega)
    obtain ⟨m',hfold,hm'⟩ :=
      ih (if 0 < size ∧ k + 1 < size then update m k c else m) (k + 1) (by omega)
    refine ⟨m',?_,fun i => ?_⟩
    · rw [foldl_cons,snPutc,hlen,map_some,hfold,add_right_comm,add_assoc]
    have hupdate : (if 0 < size ∧ k + 1 < size then update m k c else m) i =
        if i = k ∧ k + 1 < size then c else m i := by
      by_cases hs : k + 1 < size
      · simp [hs,Nat.zero_lt_of_lt hs,Function.update_apply]
      · simp [hs]
    rw [hm' i,hupdate]
    rcases Nat.lt_trichotomy i k with hi | rfl | hi
    · rw [if_neg (by omega),if_neg (by omega),if_neg (by omega)]
    · rw [if_neg (by omega),Nat.sub_self]
      exact if_congr (by omega) rfl rfl
    · have hsub : i - k = i - (k + 1) + 1 := by omega
      have hne : ¬ (i = k ∧ k + 1 < size) := by omega
      rw [if_neg hne,hsub,getD_cons_succ]
      exact if_congr (by omega) rfl rfl

def natDigits (base x : Nat) : List Nat := if x = 0 then [0] else Nat.digits base x

def parse (base : Nat) (text : List Char) : Int :=
  let value := foldl (fun v c => v * base + digitValue c) 0
  let text := text.dropWhile (· = ' ')
  if text.head? = some '-' then -(value text.tail : Int) else value text

theorem digitLoop_digits (hb : 2 ≤ base) {n x : Nat} (hx : x ≠ 0) (hlt : x < base ^ n) :
    digitLoop base n x = (Nat.digits base x).map digit := by
  induction n generalizing x with
  | zero =>
    rw [pow_zero] at hlt
    omega
  | succ n ih =>
    rw [digitLoop,Nat.digits_def' (by omega) (by omega),map_cons]
    split
    · rename_i hzero
      rw [hzero,Nat.digits_zero,map_nil]
    · rename_i hne
      rw [ih hne (Nat.div_lt_of_lt_mul (by rwa [← Nat.pow_succ']))]

theorem digitLoop_eq (hb : 2 ≤ base) {n x : Nat} (hlt : x < base ^ (n + 1)) :
    digitLoop base (n + 1) x = (natDigits base x).map digit := by
  unfold natDigits
  split
  · rename_i hx
    rw [digitLoop,hx,Nat.zero_mod,Nat.zero_div,if_pos rfl]
    rfl
  · rename_i hx
    exact digitLoop_digits hb hx hlt

theorem natDigits_lt {x d : Nat} (hb : 2 ≤ base) (hd : d ∈ natDigits base x) : d < base := by
  unfold natDigits at hd
  split at hd
  · rw [mem_singleton.mp hd]
    omega
  · exact Nat.digits_lt_base hb hd

theorem value_digits {ds : List Nat} (h : ∀ d ∈ ds, d < 16) :
    (ds.map digit).reverse.foldl (fun v c => v * base + digitValue c) 0 = Nat.ofDigits base ds := by
  rw [foldl_reverse]
  induction ds with
  | nil => rfl
  | cons d ds ih =>
    rw [map_cons,foldr_cons,ih fun x hx => h x (mem_cons_of_mem d hx),Nat.ofDigits_cons,
      (digit_spec d (h d mem_cons_self)).1,mul_comm,add_comm]

theorem parse_field {buf : List Char} (hmem : ∀ c ∈ buf, c ≠ ' ' ∧ c ≠ '-')
    (spaces zeros : Nat) (neg : Bool) :
    parse base (replicate spaces ' ' ++ ((if neg then ['-'] else []) ++ (replicate zeros '0' ++ buf))) =
      (if neg then -1 else 1) * (buf.foldl (fun v c => v * base + digitValue c) 0 : Nat) := by
  have hspaces : ∀ c ∈ replicate spaces ' ', decide (c = ' ') = true :=
    fun c hc => decide_eq_true (eq_of_mem_replicate hc)
  have hzeros : (replicate zeros '0' ++ buf).foldl (fun v c => v * base + digitValue c) 0 =
      buf.foldl (fun v c => v * base + digitValue c) 0 := by
    rw [foldl_append]
    congr 1
    induction zeros with
    | zero => rfl
    | succ n ih =>
      rw [replicate_succ,foldl_cons,zero_mul]
      exact ih
  unfold parse
  rw [dropWhile_append_of_pos hspaces]
  cases neg with
  | true => simp [hzeros]
  | false =>
    have hall : ∀ c ∈ replicate zeros '0' ++ buf, c ≠ ' ' ∧ c ≠ '-' := by
      intro c hc
      rcases mem_append.mp hc with hc | hc
      · rw [eq_of_mem_replicate hc]
        decide
      · exact hmem c hc
    rw [← hzeros]
    cases htext : replicate zeros '0' ++ buf with
    | nil => simp
    | cons c text =>
      have hc := hall c (htext ▸ mem_cons_self)
      simp [hc.1,hc.2]

def magnitude (v : Word) (sign : Bool) : Nat := if sign then v.toInt.natAbs else v.toNat

theorem magnitude_eq (v : Word) (sign : Bool) :
    (if (sign && decide (v.toInt < 0)) = true then -(v + 1) + 1 else v).toNat = magnitude v sign ∧
    (if (sign && decide (v.toInt < 0)) = true then -1 else 1) * (magnitude v sign : Int) =
      if sign then v.toInt else v.toNat := by
  have hneg : -(v + 1) + 1 = -v := by bv_omega
  have hv := v.isLt
  rw [hneg,magnitude]
  cases sign with
  | false => simp
  | true =>
    have hint := BitVec.toInt_eq_toNat_cond v
    simp only [Bool.true_and,decide_eq_true_eq,if_true]
    by_cases h : v.toInt < 0
    · rw [if_pos h,if_pos h,BitVec.toNat_neg]
      omega
    · rw [if_neg h,if_neg h]
      omega

theorem printintTo_spec (base : Nat) (hb : 2 ≤ base) (hb' : base ≤ 16) (hsize : 2 ^ 32 ≤ base ^ 16)
    (v : Word) (sign zero : Bool) (width : Nat) :
    parse base (printintTo v base sign width zero) = (if sign then v.toInt else v.toNat) ∧
    (printintTo v base sign width zero).length =
      max width ((natDigits base (magnitude v sign)).length +
        if sign && decide (v.toInt < 0) then 1 else 0) := by
  obtain ⟨hmag,hval⟩ := magnitude_eq v sign
  generalize hneg : (sign && decide (v.toInt < 0)) = neg at hmag hval ⊢
  have hlt : magnitude v sign < base ^ (15 + 1) := by
    rw [← hmag]
    exact lt_of_lt_of_le (BitVec.isLt _) hsize
  have hbuf := digitLoop_eq hb hlt
  have hds : ∀ d ∈ natDigits base (magnitude v sign), d < 16 :=
    fun d hd => lt_of_lt_of_le (natDigits_lt hb hd) hb'
  have hmem : ∀ c ∈ ((natDigits base (magnitude v sign)).map digit).reverse, c ≠ ' ' ∧ c ≠ '-' := by
    intro c hc
    obtain ⟨d,hd,rfl⟩ := mem_map.mp (mem_reverse.mp hc)
    obtain ⟨-,-,hspace,hminus,-⟩ := digit_spec d (hds d hd)
    exact ⟨hspace,hminus⟩
  have hnat : Nat.ofDigits base (natDigits base (magnitude v sign)) = magnitude v sign := by
    unfold natDigits
    split
    · rename_i hzero
      rw [hzero]
      rfl
    · exact Nat.ofDigits_digits _ _
  obtain ⟨pad,hpad⟩ : ∃ pad : Nat, pad = ((width : Int) - (((natDigits base (magnitude v sign)).map
      digit).length + (if neg then ['-'] else []).length)).toNat := ⟨_,rfl⟩
  obtain ⟨spaces,zeros,htext,hsum⟩ : ∃ spaces zeros, printintTo v base sign width zero =
      replicate spaces ' ' ++ ((if neg then ['-'] else []) ++ (replicate zeros '0' ++
        ((natDigits base (magnitude v sign)).map digit).reverse)) ∧ spaces + zeros = pad := by
    unfold printintTo
    simp only [hneg,hmag,hbuf,padTo,← hpad]
    cases zero with
    | true => exact ⟨0,pad,by simp,zero_add pad⟩
    | false => exact ⟨pad,0,by simp,rfl⟩
  rw [htext]
  refine ⟨?_,?_⟩
  · rw [parse_field hmem,value_digits hds,hnat,hval]
  · simp only [length_append,length_replicate,length_reverse,length_map]
    rw [length_map] at hpad
    cases neg <;> simp at hpad ⊢ <;> omega

theorem vsnprintf_text {fmt text : List Char} {ap : List Arg}
    (hto : ∀ {σ : Type} (put : σ → Char → σ) arg, vprintfTo put arg fmt ap = some (text.foldl put arg))
    (hlen : text.length < 2 ^ 31) (buf : Nat → Char) (size : Nat) : ∃ buf' : Nat → Char,
    vsnprintf (some buf) size fmt ap = some (some buf',(text.length : Int)) ∧
      ∀ i, buf' i = if i < min text.length (size - 1) then text.getD i (buf i)
        else if 0 < size ∧ i = min text.length (size - 1) then '\x00' else buf i := by
  obtain ⟨m,hfold,hm⟩ := foldl_snPutc text buf size 0 (by omega)
  rw [zero_add] at hfold
  have hnat : (BitVec.ofNat 32 text.length).toNat = text.length := Nat.mod_eq_of_lt (by omega)
  have hint : (BitVec.ofNat 32 text.length).toInt = text.length := by
    rw [BitVec.toInt_eq_toNat_of_lt (by omega),hnat]
  refine ⟨_,by rw [vsnprintf,hto,hfold,map_some,hint,map_some],fun i => ?_⟩
  have hi := hm i
  rw [Nat.sub_zero] at hi
  have hpos : (if text.length < size then text.length else size - 1) =
      min text.length (size - 1) := by
    split <;> omega
  by_cases hsize : 0 < size
  · rw [if_pos hsize,hpos]
    by_cases heq : i = min text.length (size - 1)
    · rw [← heq,update_self,if_neg (lt_irrefl i),if_pos ⟨hsize,rfl⟩]
    · have hnul : ¬ (0 < size ∧ i = min text.length (size - 1)) := fun h => heq h.2
      rw [update_of_ne heq,if_neg hnul,hi]
      by_cases hin : i < min text.length (size - 1)
      · rw [if_pos hin,if_pos (by omega)]
      · rw [if_neg hin]
        split
        · rw [getD_eq_getElem?_getD,getElem?_eq_none (by omega),getD_none]
        · rfl
  · rw [if_neg hsize,if_neg (by omega),if_neg (by omega),hi,if_neg (by omega)]

def format (ps : List Piece) : List Char := ps.flatMap Piece.format

def args (ps : List Piece) : List Arg := ps.flatMap Piece.args

def expand (ps : List Piece) : List Char := ps.flatMap Piece.expand

theorem vsnprintf_exact :
    (∀ (ps : List Piece) (buf : Nat → Char) (size : Nat), (∀ p ∈ ps, p.Ok) →
      (expand ps).length < 2 ^ 31 → ∃ buf' : Nat → Char,
        vsnprintf (some buf) size (format ps) (args ps) =
          some (some buf',((expand ps).length : Int)) ∧
        ∀ i, buf' i = if i < min (expand ps).length (size - 1) then (expand ps).getD i (buf i)
          else if 0 < size ∧ i = min (expand ps).length (size - 1) then '\x00'
          else buf i) ∧
    ∀ (zero : Bool) (width : Nat) (v : Word),
      parse 10 (Field.expand zero width (.d v)) = v.toInt ∧
      parse 10 (Field.expand zero width (.u v)) = v.toNat ∧
      parse 16 (Field.expand zero width (.x v)) = v.toNat ∧
      (Field.expand zero width (.d v)).length =
        max width ((natDigits 10 v.toInt.natAbs).length + if v.toInt < 0 then 1 else 0) ∧
      (Field.expand zero width (.u v)).length = max width (natDigits 10 v.toNat).length ∧
      (Field.expand zero width (.x v)).length = max width (natDigits 16 v.toNat).length := by
  refine ⟨fun ps buf size hps hlen => ?_,fun zero width v => ?_⟩
  · exact vsnprintf_text (fun put arg => vprintfTo_pieces hps put arg) hlen buf size
  · obtain ⟨hd,hdlen⟩ := printintTo_spec 10 (by decide) (by decide) (by decide) v true zero width
    obtain ⟨hu,hulen⟩ := printintTo_spec 10 (by decide) (by decide) (by decide) v false zero width
    obtain ⟨hx,hxlen⟩ := printintTo_spec 16 (by decide) (by decide) (by decide) v false zero width
    refine ⟨hd,hu,hx,hdlen.trans ?_,hulen,hxlen⟩
    simp [magnitude]

theorem vsnprintf_exact_padded : ∃ buf', vsnprintf (some fun _ => 'z') 8
    (format [.text 'a',.conv true 5 (.d (-42))]) [.int (-42)] = some (some buf',6) ∧
      buf' 6 = '\x00' ∧ buf' 7 = 'z' := by
  obtain ⟨buf',hcall,hbuf⟩ := vsnprintf_exact.1 [.text 'a',.conv true 5 (.d (-42))]
    (fun _ => 'z') 8 (by simp [Piece.Ok]) (by decide)
  exact ⟨buf',hcall,(hbuf 6).trans (by decide),(hbuf 7).trans (by decide)⟩

theorem width_overflows : (vsnprintf (some fun _ => 'z') 16 "%2147483648d".toList [.int 5]).map
    Prod.snd = some 1 := by
  decide +kernel

end TinyOs.Printf
