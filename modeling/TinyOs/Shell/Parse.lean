import Mathlib.Data.List.TakeWhile
import Mathlib.Logic.Function.Basic

namespace TinyOs.Shell

open List Option
open Function (update update_of_ne update_self)

abbrev Str := List UInt8

variable {w : Str} {argv : Nat → Option Str}

def maxargv : Nat := 32

def isSpace (c : UInt8) : Bool := c == 0x20 || c == 0x09

def advance (test : UInt8 → Bool) (line : Str) (p : Nat) : Nat :=
  p + ((line.drop p).takeWhile fun c => c != 0 && test c).length

def skipsp (line : Str) (p : Nat) : Nat := advance isSpace line p

def splitLoop : Nat → Str → Nat → List Nat × Str
  | 0, line, _ => ([],line)
  | room + 1, line, p =>
    if line.getD p 0 = 0 then ([],line)
    else
      let q := advance (fun c => !isSpace c) line p
      if line.getD q 0 = 0 then ([p],line)
      else
        let line := line.set q 0
        let r := splitLoop room line (skipsp line (q + 1))
        (p :: r.1,r.2)

def splitArgv (line : Str) (max : Nat) : List (Option Nat) × Str :=
  let r := splitLoop (max - 1) line (skipsp line 0)
  (r.1.map some ++ [none],r.2)

def cstr (line : Str) (p : Nat) : Str := (line.drop p).takeWhile (· != 0)

noncomputable def words (line : Str) : List Str := (line.splitOnP isSpace).filter (· ≠ [])

theorem words_append {rest : Str} {c : UInt8} (hc : isSpace c) :
    words (w ++ c :: rest) = words w ++ words rest := by
  rw [words,splitOnP_append_cons _ _ hc,filter_append]
  rfl

theorem words_run (hne : w ≠ []) (h : ∀ c ∈ w, isSpace c = false) : words w = [w] := by
  rw [words,splitOnP_eq_singleton h]
  simp [hne]

theorem words_spaces {l rest : Str} (h : ∀ c ∈ l, isSpace c) : words (l ++ rest) = words rest := by
  induction l with
  | nil => rfl
  | cons c l ih =>
    have hcons : words (c :: (l ++ rest)) = words [] ++ words (l ++ rest) :=
      words_append (w := []) (h c (by simp))
    rw [cons_append,hcons,ih fun d hd => h d (by simp [hd])]
    rfl

theorem advance_append (test : UInt8 → Bool) (pre : Str) {u : Str} (h0 : 0 ∉ u) :
    ∃ l rest, u = l ++ rest ∧ advance test (pre ++ u) pre.length = (pre ++ l).length ∧
      (∀ c ∈ l, test c) ∧ ∀ c ∈ rest.head?, test c = false := by
  refine ⟨_,_,(takeWhile_append_dropWhile (p := fun c => c != 0 && test c)).symm,?_,fun c hc => ?_,
    fun c hc => ?_⟩
  · rw [advance,drop_left,length_append]
  · have htest := mem_takeWhile_imp hc
    rw [Bool.and_eq_true] at htest
    exact htest.2
  · have hne : c ≠ 0 := fun he => h0 (he ▸ (dropWhile_sublist _).subset (mem_of_mem_head? hc))
    have hnot := head?_dropWhile_not (fun c => c != 0 && test c) u
    rw [mem_def.mp hc] at hnot
    simpa [hne] using hnot

theorem getD_length (pre u : Str) : (pre ++ u).getD pre.length 0 = u.head?.getD 0 := by
  rw [getD_eq_getElem?_getD,getElem?_append_right le_rfl,Nat.sub_self,head?_eq_getElem?]

theorem cstr_append (pre rest : Str) (h0 : 0 ∉ w) :
    cstr (pre ++ (w ++ 0 :: rest)) pre.length = w := by
  have hw : ∀ c ∈ w, (c != 0) = true := fun c hc => bne_iff_ne.mpr fun he => h0 (he ▸ hc)
  rw [cstr,drop_left,takeWhile_append_of_pos hw]
  simp

theorem splitLoop_spec (room : Nat) (pre u : Str) (h0 : 0 ∉ u)
    (hp : ∀ c ∈ u.head?, isSpace c = false) :
    ∃ u', (splitLoop room (pre ++ u) pre.length).2 = pre ++ u' ∧
      (splitLoop room (pre ++ u) pre.length).1.map (cstr (pre ++ u')) = (words u).take room := by
  induction room generalizing pre u with
  | zero => exact ⟨u,rfl,rfl⟩
  | succ room ih =>
    simp only [splitLoop,getD_length]
    cases u with
    | nil => exact ⟨[],rfl,rfl⟩
    | cons a u =>
    have ha : a ≠ 0 := fun he => h0 (by simp [he])
    rw [head?_cons,getD_some,if_neg ha]
    obtain ⟨w,rest,hu,hq,hw,hrest⟩ := advance_append (fun c => !isSpace c) pre h0
    have hne : w ≠ [] := by
      rintro rfl
      rw [nil_append] at hu
      have := hrest a (by rw [← hu]; rfl)
      simp [hp a rfl] at this
    have hrun := words_run hne fun c hc => by simpa using hw c hc
    rw [hu] at h0 hq ⊢
    rw [hq,← append_assoc,getD_length]
    cases rest with
    | nil =>
      refine ⟨w,by simp,?_⟩
      have hcstr : cstr (pre ++ w) pre.length = w := by
        rw [cstr,drop_left,takeWhile_eq_self_iff]
        exact fun c hc => bne_iff_ne.mpr fun he => h0 (mem_append_left _ (he ▸ hc))
      simp [hcstr,hrun]
    | cons d rest =>
      have hd : isSpace d := by simpa using hrest d rfl
      have hd0 : d ≠ 0 := fun he => h0 (by simp [he])
      rw [head?_cons,getD_some,if_neg hd0,set_append_right _ _ le_rfl,Nat.sub_self,set_cons_zero]
      have hsplit : pre ++ w ++ 0 :: rest = pre ++ w ++ [0] ++ rest := by simp
      have hlen : (pre ++ w).length + 1 = (pre ++ w ++ [0]).length := by simp [Nat.add_assoc]
      obtain ⟨l,u₂,rfl,hs,hl,hu₂⟩ := advance_append isSpace (pre ++ w ++ [0]) (u := rest)
        fun h => h0 (by simp [h])
      rw [skipsp,hsplit,hlen,hs,← append_assoc _ l]
      obtain ⟨u',hmem,hptrs⟩ := ih (pre ++ w ++ [0] ++ l) u₂ (fun h => h0 (by simp [h])) hu₂
      refine ⟨w ++ 0 :: (l ++ u'),by rw [hmem]; simp,?_⟩
      have hall : pre ++ (w ++ 0 :: (l ++ u')) = pre ++ w ++ [0] ++ l ++ u' := by simp
      rw [words_append hd,words_spaces hl,hrun,map_cons,cstr_append _ _ fun h => h0 (by simp [h]),
        hall,hptrs]
      rfl

theorem splitArgv_spec {line : Str} (h0 : 0 ∉ line) (max : Nat) :
    ∃ ptrs : List Nat, (splitArgv line max).1 = ptrs.map some ++ [none] ∧
      ptrs.map (cstr (splitArgv line max).2) = (words line).take (max - 1) := by
  obtain ⟨l,u,rfl,hp,hl,hu⟩ := advance_append isSpace [] h0
  have hskip : skipsp (l ++ u) 0 = l.length := hp
  obtain ⟨u',hmem,hptrs⟩ := splitLoop_spec (max - 1) l u (fun h => h0 (by simp [h])) hu
  refine ⟨_,rfl,?_⟩
  simp only [splitArgv,hskip]
  rw [words_spaces hl,hmem]
  exact hptrs

inductive RedirError where
  | missingFilename
  | multipleRedirects
  | missingCommand
  deriving DecidableEq

def redirect (token : Option Str) : Option Bool :=
  if token = some [0x3e,0x3e] then some true
  else if token = some [0x3e] then some false
  else none

def shift (argv : Nat → Option Str) (i argc : Nat) : Nat → Option Str :=
  (range' i (argc - 1 - i)).foldl (fun a j => update a j (a (j + 2))) argv

structure Redir where
  argv : Nat → Option Str
  argc : Nat
  path : Option Str
  append : Bool

def redirLoop (r : Redir) (i : Nat) : Except RedirError Redir :=
  if i < r.argc then
    match redirect (r.argv i) with
    | none => redirLoop r (i + 1)
    | some append =>
      if r.argc ≤ i + 1 then .error .missingFilename
      else if r.path.isSome then .error .multipleRedirects
      else redirLoop ⟨update (shift r.argv i r.argc) (r.argc - 2) none,r.argc - 2,r.argv (i + 1),
        append⟩ i
  else if r.path.isSome ∧ r.argc = 0 then .error .missingCommand
  else .ok r
termination_by r.argc - i

def parseRedir (argv : Nat → Option Str) (argc : Nat) : Except RedirError Redir :=
  redirLoop ⟨argv,argc,none,false⟩ 0

def Holds (argv : Nat → Option Str) (l : List Str) : Prop := ∀ k ≤ l.length, argv k = l[k]?

def Plain (l : List Str) : Prop := ∀ t ∈ l, redirect (some t) = none

inductive Parsed (argv : Nat → Option Str) : List Str → Except RedirError Redir → Prop
  | unchanged {l : List Str} (h : Plain l) : Parsed argv l (.ok ⟨argv,l.length,none,false⟩)
  | missing {pre : List Str} {r : Str} {a : Bool} (h : Plain pre) (hr : redirect (some r) = some a) :
    Parsed argv (pre ++ [r]) (.error .missingFilename)
  | second {pre mid rest : List Str} {r f r' : Str} {a a' : Bool} (h : Plain pre)
    (hr : redirect (some r) = some a) (hmid : Plain mid) (hr' : redirect (some r') = some a') :
    Parsed argv (pre ++ r :: f :: (mid ++ r' :: rest))
      (.error (if rest = [] then .missingFilename else .multipleRedirects))
  | alone {r f : Str} {a : Bool} (hr : redirect (some r) = some a) :
    Parsed argv [r,f] (.error .missingCommand)
  | removed {pre post : List Str} {r f : Str} {a : Bool} {argv' : Nat → Option Str} (h : Plain pre)
    (hr : redirect (some r) = some a) (hpost : Plain post) (hne : pre ++ post ≠ [])
    (hargv : Holds argv' (pre ++ post)) :
    Parsed argv (pre ++ r :: f :: post) (.ok ⟨argv',(pre ++ post).length,some f,a⟩)

theorem shift_apply (argv : Nat → Option Str) (i argc k : Nat) :
    shift argv i argc k = if i ≤ k ∧ k + 1 < argc then argv (k + 2) else argv k := by
  have hloop : ∀ n k, (range' i n).foldl (fun a j => update a j (a (j + 2))) argv k =
      if i ≤ k ∧ k < i + n then argv (k + 2) else argv k := by
    intro n
    induction n with
    | zero => exact fun k => (if_neg (by omega)).symm
    | succ n ih =>
      intro k
      rw [range'_concat,foldl_append,foldl_cons,foldl_nil,Nat.one_mul]
      by_cases hk : k = i + n
      · rw [hk,update_self,ih,if_neg (by omega),if_pos (by omega)]
      · rw [update_of_ne hk,ih]
        exact if_congr (by omega) rfl rfl
  rw [shift,hloop]
  exact if_congr (by omega) rfl rfl

theorem Holds.remove {pre post : List Str} {r f : Str} (h : Holds argv (pre ++ r :: f :: post)) :
    Holds (update (shift argv pre.length (pre ++ r :: f :: post).length)
      ((pre ++ r :: f :: post).length - 2) none) (pre ++ post) := by
  intro k hk
  have hlen : (pre ++ r :: f :: post).length = (pre ++ post).length + 2 := by
    simp
    omega
  rw [hlen,Nat.add_sub_cancel]
  by_cases hend : k = (pre ++ post).length
  · rw [hend,update_self,getElem?_eq_none le_rfl]
  rw [update_of_ne hend,shift_apply]
  by_cases hi : pre.length ≤ k
  · rw [if_pos (by omega),h _ (by omega),getElem?_append_right (by omega),getElem?_append_right hi,
      show k + 2 - pre.length = k - pre.length + 2 by omega]
    rfl
  · rw [if_neg (by omega),h k (by omega),getElem?_append_left (by omega),
      getElem?_append_left (by omega)]

theorem Holds.at {pre rest : List Str} {t : Str}
    (h : Holds argv (pre ++ t :: rest)) : argv pre.length = some t := by
  rw [h _ (by simp)]
  simp

theorem redirLoop_found (pre rest : List Str) (f : Str) (a : Bool) (h : Holds argv (pre ++ rest)) :
    (Plain rest ∧ redirLoop ⟨argv,(pre ++ rest).length,some f,a⟩ pre.length =
      if pre ++ rest = [] then .error .missingCommand
      else .ok ⟨argv,(pre ++ rest).length,some f,a⟩) ∨
    ∃ mid r tail a', rest = mid ++ r :: tail ∧ Plain mid ∧ redirect (some r) = some a' ∧
      redirLoop ⟨argv,(pre ++ rest).length,some f,a⟩ pre.length =
        .error (if tail = [] then .missingFilename else .multipleRedirects) := by
  induction rest generalizing pre with
  | nil =>
    refine .inl ⟨forall_mem_nil _,?_⟩
    rw [redirLoop]
    simp
  | cons t rest ih =>
    rw [redirLoop]
    simp only [h.at,length_append,length_cons]
    rw [if_pos (by omega)]
    cases ht : redirect (some t) with
    | none =>
      have hstep := ih (pre ++ [t]) (by rwa [append_assoc])
      simp only [append_assoc,singleton_append,length_append,length_cons,length_nil] at hstep
      rcases hstep with ⟨hplain,hloop⟩ | ⟨mid,r,tail,a',rfl,hmid,hr,hloop⟩
      · exact .inl ⟨forall_mem_cons.mpr ⟨ht,hplain⟩,hloop⟩
      · exact .inr ⟨t :: mid,r,tail,a',rfl,forall_mem_cons.mpr ⟨ht,hmid⟩,hr,hloop⟩
    | some a' =>
      refine .inr ⟨[],t,rest,a',rfl,forall_mem_nil _,ht,?_⟩
      cases rest with
      | nil => simp
      | cons u rest => simp

theorem redirLoop_spec (pre rest : List Str) (hpre : Plain pre) (h : Holds argv (pre ++ rest)) :
    Parsed argv (pre ++ rest) (redirLoop ⟨argv,(pre ++ rest).length,none,false⟩ pre.length) := by
  induction rest generalizing pre with
  | nil =>
    rw [append_nil,redirLoop]
    simpa using Parsed.unchanged hpre
  | cons t rest ih =>
    cases ht : redirect (some t) with
    | none =>
      have hstep := ih (pre ++ [t]) (forall_mem_append.mpr ⟨hpre,by simpa using ht⟩)
        (by rwa [append_assoc])
      rw [append_assoc,singleton_append] at hstep
      rw [redirLoop]
      simpa [h.at,ht] using hstep
    | some a =>
      cases rest with
      | nil =>
        rw [redirLoop]
        simpa [h.at,ht] using Parsed.missing hpre ht
      | cons f post =>
        have hf : argv (pre.length + 1) = some f := by
          rw [h _ (by simp)]
          simp
        have hloop := redirLoop_found pre post f a h.remove
        rw [redirLoop]
        simp only [h.at,ht,hf]
        rw [if_pos (by simp),if_neg (by simp),if_neg (by simp)]
        have hlen : (pre ++ t :: f :: post).length - 2 = (pre ++ post).length := by
          simp only [length_append,length_cons]
          omega
        rw [hlen] at hloop ⊢
        rcases hloop with ⟨hplain,hloop⟩ | ⟨mid,r,tail,a',rfl,hmid,hr,hloop⟩ <;> rw [hloop]
        · split
          · rename_i hnil
            obtain ⟨rfl,rfl⟩ := append_eq_nil_iff.mp hnil
            exact .alone ht
          · exact .removed hpre ht hplain ‹_› (hlen ▸ h.remove)
        · exact .second hpre ht hmid hr

theorem shell_parsing_correct (line : Str) (h0 : 0 ∉ line) (argv : Nat → Option Str)
    (tokens : List Str) (h : Holds argv tokens) :
    (∃ ptrs : List Nat, (splitArgv line maxargv).1 = ptrs.map some ++ [none] ∧
      ptrs.map (cstr (splitArgv line maxargv).2) = (words line).take (maxargv - 1)) ∧
    Parsed argv tokens (parseRedir argv tokens.length) :=
  ⟨splitArgv_spec h0 maxargv,redirLoop_spec [] tokens (forall_mem_nil _) h⟩

theorem shell_parsing_correct_redirect :
    Parsed (fun k => [[0x61],[0x3e],[0x62]][k]?) [[0x61],[0x3e],[0x62]]
      (parseRedir (fun k => [[0x61],[0x3e],[0x62]][k]?) 3) :=
  (shell_parsing_correct [0x61,0x20,0x3e,0x20,0x62] (by decide) _ _ fun _ _ => rfl).2

end TinyOs.Shell
