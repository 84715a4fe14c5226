import TinyOs.Console.Line

namespace TinyOs.Console

open List

def bounce : Nat := 128

inductive Input where
  | byte (c : Byte)
  | signal
  deriving DecidableEq

inductive Outcome where
  | waits (got : List Byte)
  | fails (got : List Byte) (rest : List Input)
  | returns (got : List Byte) (rest : List Input)
  deriving DecidableEq

def consoleFopRead : Nat → List Byte → List Input → Outcome
  | 0, dst, input => .returns dst input
  | _ + 1, dst, [] => .waits dst
  | _ + 1, dst, .signal :: rest => if dst = [] then .fails dst rest else .returns dst rest
  | n + 1, dst, .byte c :: rest =>
    if c = eot then .returns dst rest
    else if c = newline then .returns (dst ++ [c]) rest
    else consoleFopRead n (dst ++ [c]) rest

def sysRead (n : Nat) (got : List Byte) (input : List Input) : Outcome :=
  if n = 0 then .returns got input
  else
    match consoleFopRead (min n bounce) [] input with
    | .waits dst => .waits (got ++ dst)
    | .fails dst rest => .fails (got ++ dst) rest
    | .returns dst rest =>
      if dst.length < min n bounce then .returns (got ++ dst) rest
      else sysRead (n - min n bounce) (got ++ dst) rest
  termination_by n
  decreasing_by
    unfold bounce
    omega

def firstLine : Nat → List Input → List Byte
  | 0, _ => []
  | _ + 1, [] => []
  | _ + 1, .signal :: _ => []
  | n + 1, .byte c :: rest =>
    if c = eot then [] else if c = newline then [c] else c :: firstLine n rest

def OneLine (line : List Byte) : Outcome → Prop
  | .returns got _ => got = line
  | .waits got | .fails got _ => got = line ∧ newline ∉ got

def Overrun (n : Nat) (input : List Input) : Prop :=
  ∃ line : List Byte, ∃ rest, input = line.map .byte ++ .byte newline :: rest ∧
    newline ∉ line ∧ eot ∉ line ∧ bounce ∣ line.length + 1 ∧ line.length + 1 < n ∧
    rest.head? ≠ some (.byte eot)

def Outcome.got : Outcome → List Byte
  | .waits got => got
  | .fails got _ => got
  | .returns got _ => got

variable {line got dst : List Byte} {input rest : List Input} {n : Nat}

theorem OneLine.got_eq {o : Outcome} (h : OneLine line o) : o.got = line := by
  cases o with
  | waits got | fails got rest => exact h.1
  | returns got rest => exact h

theorem fop_extends (n : Nat) (dst : List Byte) (input : List Input) :
    dst <+: (consoleFopRead n dst input).got := by
  fun_induction consoleFopRead n dst input with
  | case1 => exact prefix_rfl
  | case2 => exact prefix_rfl
  | case3 => exact prefix_rfl
  | case4 => exact prefix_rfl
  | case5 => exact prefix_rfl
  | case6 => exact prefix_append _ _
  | case7 n dst c rest _ _ ih => exact (prefix_append _ _).trans ih

theorem sysRead_extends (n : Nat) (got : List Byte) (input : List Input) :
    n = 0 ∧ sysRead n got input = .returns got input ∨
      got ++ (consoleFopRead (min n bounce) [] input).got <+: (sysRead n got input).got := by
  fun_induction sysRead n got input with
  | case1 => exact .inl ⟨rfl,rfl⟩
  | case2 n got input hn dst heq =>
    rw [heq]
    exact .inr prefix_rfl
  | case3 n got input hn dst rest heq =>
    rw [heq]
    exact .inr prefix_rfl
  | case4 n got input hn dst rest heq hlt =>
    rw [heq]
    exact .inr prefix_rfl
  | case5 n got input hn dst rest heq hlt ih =>
    rw [heq]
    refine .inr ?_
    rcases ih with ⟨-,hdone⟩ | hmore
    · rw [hdone]
      exact prefix_rfl
    · exact (prefix_append _ _).trans hmore

def Plain (line : List Byte) : Prop := newline ∉ line ∧ eot ∉ line

theorem plain_nil : Plain [] := ⟨not_mem_nil,not_mem_nil⟩

theorem fop_plain (hline : Plain line) (k : Nat) (dst : List Byte) (rest : List Input) :
    consoleFopRead (line.length + k) dst (line.map .byte ++ rest) =
      consoleFopRead k (dst ++ line) rest := by
  induction line generalizing dst with
  | nil => rw [append_nil,length_nil,zero_add]; rfl
  | cons c line ih =>
    obtain ⟨hnl,heot⟩ := hline
    rw [mem_cons,not_or] at hnl heot
    rw [length_cons,add_right_comm,map_cons,cons_append,consoleFopRead,if_neg (Ne.symm heot.1),
      if_neg (Ne.symm hnl.1),ih ⟨hnl.2,heot.2⟩,append_assoc]
    rfl

theorem firstLine_plain (hline : Plain line) (k : Nat) (rest : List Input) :
    firstLine (line.length + k) (line.map .byte ++ rest) = line ++ firstLine k rest := by
  induction line with
  | nil => rw [length_nil,zero_add]; rfl
  | cons c line ih =>
    obtain ⟨hnl,heot⟩ := hline
    rw [mem_cons,not_or] at hnl heot
    rw [length_cons,add_right_comm,map_cons,cons_append,firstLine,if_neg (Ne.symm heot.1),
      if_neg (Ne.symm hnl.1),ih ⟨hnl.2,heot.2⟩,cons_append]

def Stops (rest : List Input) : Prop :=
  rest = [] ∨ (∃ more, rest = .signal :: more) ∨ (∃ more, rest = .byte eot :: more) ∨
    ∃ more, rest = .byte newline :: more

theorem exists_plain (input : List Input) :
    ∃ line rest, input = line.map .byte ++ rest ∧ Plain line ∧ Stops rest := by
  induction input with
  | nil => exact ⟨[],[],rfl,plain_nil,.inl rfl⟩
  | cons a input ih =>
    cases a with
    | signal => exact ⟨[],_,rfl,plain_nil,.inr (.inl ⟨_,rfl⟩)⟩
    | byte c =>
      rcases eq_or_ne c eot with rfl | heot
      · exact ⟨[],_,rfl,plain_nil,.inr (.inr (.inl ⟨_,rfl⟩))⟩
      rcases eq_or_ne c newline with rfl | hnl
      · exact ⟨[],_,rfl,plain_nil,.inr (.inr (.inr ⟨_,rfl⟩))⟩
      obtain ⟨line,rest,rfl,hline,hrest⟩ := ih
      refine ⟨c :: line,rest,rfl,⟨?_,?_⟩,hrest⟩
      · exact fun hmem => (mem_cons.mp hmem).elim (Ne.symm hnl) hline.1
      · exact fun hmem => (mem_cons.mp hmem).elim (Ne.symm heot) hline.2

theorem plain_prefix {line' : List Byte} {more : List Input} (hline : newline ∉ line)
    (h : line.map .byte ++ rest = line'.map .byte ++ .byte newline :: more) :
    ∃ left, line' = line ++ left ∧ rest = left.map .byte ++ .byte newline :: more := by
  induction line generalizing line' with
  | nil => exact ⟨line',rfl,h⟩
  | cons c line ih =>
    rw [mem_cons,not_or] at hline
    cases line' with
    | nil =>
      rw [map_cons,cons_append,map_nil,nil_append,cons.injEq] at h
      exact absurd (Input.byte.inj h.1).symm hline.1
    | cons c' line' =>
      simp only [map_cons,cons_append,cons.injEq,Input.byte.injEq] at h
      obtain ⟨left,rfl,hrest⟩ := ih hline.2 h.2
      exact ⟨left,by rw [h.1,cons_append],hrest⟩

theorem after_newline (got : List Byte) (hn : n ≠ 0) :
    OneLine (got ++ [newline]) (sysRead n (got ++ [newline]) rest) ↔
      rest.head? = some (.byte eot) := by
  obtain ⟨k,hk⟩ : ∃ k, min n bounce = k + 1 := Nat.exists_eq_succ_of_ne_zero (by
      unfold bounce
      omega)
  have hlast : newline ∈ got ++ [newline] ++ [] := by simp
  cases rest with
  | nil =>
    rw [sysRead,if_neg hn,hk,consoleFopRead]
    exact iff_of_false (fun h => h.2 hlast) (by simp)
  | cons a rest =>
    cases a with
    | signal =>
      rw [sysRead,if_neg hn,hk,consoleFopRead,if_pos rfl]
      exact iff_of_false (fun h => h.2 hlast) (by simp)
    | byte c =>
      rcases eq_or_ne c eot with rfl | heot
      · rw [sysRead,if_neg hn,hk,consoleFopRead,if_pos rfl]
        refine iff_of_true ?_ rfl
        dsimp only [length_nil]
        rw [if_pos (Nat.succ_pos k),append_nil]
        rfl
      refine iff_of_false (fun h => ?_) fun h => heot (Input.byte.inj (Option.some.inj h))
      have hc : [c] <+: (consoleFopRead (min n bounce) [] (.byte c :: rest)).got := by
        rw [hk,consoleFopRead,if_neg heot]
        split
        · exact prefix_rfl
        · exact fop_extends k _ _
      rcases sysRead_extends n (got ++ [newline]) (.byte c :: rest) with ⟨hzero,-⟩ | hmore
      · exact hn hzero
      have hlen := (((prefix_append_right_inj _).mpr hc).trans hmore).length_le
      rw [h.got_eq,length_append,length_singleton] at hlen
      omega

theorem overrun_plain (hline : Plain line) (hlen : line.length = bounce) :
    Overrun n (line.map .byte ++ rest) ↔ Overrun (n - bounce) rest := by
  constructor
  · rintro ⟨line',more,heq,hnl,heot,hdvd,hlt,hmore⟩
    obtain ⟨left,rfl,rfl⟩ := plain_prefix hline.1 heq
    rw [length_append,hlen,add_assoc] at hdvd hlt
    refine ⟨left,more,rfl,fun h => hnl (mem_append_right _ h),fun h => heot (mem_append_right _ h),
      (Nat.dvd_add_right dvd_rfl).mp hdvd,?_,hmore⟩
    omega
  rintro ⟨left,more,rfl,hnl,heot,hdvd,hlt,hmore⟩
  refine ⟨line ++ left,more,by rw [map_append,append_assoc],?_,?_,?_,?_,hmore⟩
  · exact fun h => (mem_append.mp h).elim hline.1 hnl
  · exact fun h => (mem_append.mp h).elim hline.2 heot
  · rw [length_append,hlen,add_assoc]
    exact (Nat.dvd_add_right dvd_rfl).mpr hdvd
  · rw [length_append,hlen]
    omega

theorem overrun_ends (hline : Plain line) : Overrun n (line.map .byte ++ .byte newline :: rest) ↔
      bounce ∣ line.length + 1 ∧ line.length + 1 < n ∧ rest.head? ≠ some (.byte eot) := by
  constructor
  · rintro ⟨line',more,heq,hnl,heot,hdvd,hlt,hmore⟩
    obtain ⟨left,rfl,hleft⟩ := plain_prefix hline.1 heq
    cases left with
    | nil =>
      rw [append_nil] at hdvd hlt
      obtain ⟨-,rfl⟩ := cons.inj hleft
      exact ⟨hdvd,hlt,hmore⟩
    | cons c left =>
      obtain ⟨hc,-⟩ := cons.inj hleft
      rw [Input.byte.inj hc] at hnl
      exact absurd (mem_append_right _ (mem_cons_self ..)) hnl
  · rintro ⟨hdvd,hlt,hmore⟩
    exact ⟨line,rest,rfl,hline.1,hline.2,hdvd,hlt,hmore⟩

theorem not_overrun_of_stop (hline : Plain line)
    (hrest : ∀ left more, rest = List.map Input.byte left ++ .byte newline :: more → eot ∈ left) :
    ¬ Overrun n (line.map .byte ++ rest) := by
  rintro ⟨line',more,heq,-,heot,-⟩
  obtain ⟨left,rfl,hleft⟩ := plain_prefix hline.1 heq
  exact heot (mem_append_right _ (hrest left more hleft))

theorem not_overrun_long (line : List Byte) (hline : Plain line) (hn : n ≤ line.length) :
    ¬ Overrun n (line.map .byte ++ rest) := by
  rintro ⟨line',more,heq,-,-,-,hlt,-⟩
  obtain ⟨left,rfl,-⟩ := plain_prefix hline.1 heq
  rw [length_append] at hlt
  omega

theorem sysRead_short (hline : Plain line) (hrest : Stops rest) (hgot : newline ∉ got)
    (hlt : line.length < min n bounce) : OneLine (got ++ firstLine n (line.map .byte ++ rest))
      (sysRead n got (line.map .byte ++ rest)) ↔ ¬ Overrun n (line.map .byte ++ rest) := by
  have hall : newline ∉ got ++ line := fun h => (mem_append.mp h).elim hgot hline.1
  obtain ⟨k,hk⟩ := Nat.exists_eq_add_of_lt hlt
  have hread := fop_plain hline (k + 1) [] rest
  rw [← add_assoc,← hk,nil_append] at hread
  obtain ⟨j,hj⟩ : ∃ j, n = line.length + (j + 1) := ⟨n - line.length - 1,by omega⟩
  have hfirst := firstLine_plain hline (j + 1) rest
  rw [← hj] at hfirst
  rw [sysRead,if_neg (by omega),hread,hfirst]
  rcases hrest with rfl | ⟨more,rfl⟩ | ⟨more,rfl⟩ | ⟨more,rfl⟩
  · rw [firstLine,append_nil]
    refine iff_of_true ⟨rfl,hall⟩ (not_overrun_of_stop hline fun left more h => ?_)
    cases left <;> cases h
  · rw [firstLine,append_nil]
    refine iff_of_true ?_ (not_overrun_of_stop hline fun left more h => ?_)
    · rw [consoleFopRead]
      rcases eq_or_ne line [] with hnil | hnil
      · rw [if_pos hnil]
        exact ⟨rfl,hall⟩
      rw [if_neg hnil]
      dsimp only
      rw [if_pos hlt]
      rfl
    · cases left <;> cases h
  · rw [firstLine,if_pos rfl,append_nil]
    refine iff_of_true ?_ (not_overrun_of_stop hline fun left more h => ?_)
    · rw [consoleFopRead,if_pos rfl]
      dsimp only
      rw [if_pos hlt]
      rfl
    · cases left with
      | nil => cases h
      | cons c left => exact Input.byte.inj (cons.inj h).1 ▸ mem_cons_self ..
  · have hne : newline ≠ eot := by decide
    rw [overrun_ends hline,consoleFopRead,firstLine,if_neg hne,if_neg hne,if_pos rfl,if_pos rfl]
    dsimp only
    rw [length_append,length_singleton,← append_assoc]
    rcases lt_or_ge (line.length + 1) (min n bounce) with hin | hfill
    · rw [if_pos hin]
      refine iff_of_true rfl fun h => ?_
      have := Nat.le_of_dvd (Nat.succ_pos _) h.1
      omega
    rw [if_neg (not_lt.mpr hfill)]
    rcases Nat.eq_zero_or_pos (n - min n bounce) with hzero | hmore
    · rw [hzero,sysRead,if_pos rfl]
      refine iff_of_true rfl fun h => ?_
      omega
    have hfull : line.length + 1 = bounce := by omega
    rw [after_newline _ (by omega),hfull]
    simp only [dvd_refl,true_and,ne_eq,not_and,not_not]
    exact ⟨fun h _ => h,fun h => h (by omega)⟩

theorem sysRead_chunk (got : List Byte) (rest : List Input) (hline : Plain line)
    (hlen : line.length = min n bounce) (hn : n ≠ 0) :
    sysRead n got (line.map .byte ++ rest) = sysRead (n - min n bounce) (got ++ line) rest ∧
    firstLine n (line.map .byte ++ rest) = line ++ firstLine (n - min n bounce) rest ∧
    (Overrun n (line.map .byte ++ rest) ↔ Overrun (n - min n bounce) rest) := by
  have hread := fop_plain hline 0 [] rest
  have hfirst := firstLine_plain hline (n - min n bounce) rest
  rw [add_zero,hlen,nil_append,consoleFopRead] at hread
  rw [hlen,Nat.add_sub_cancel' (Nat.min_le_left n bounce)] at hfirst
  refine ⟨?_,hfirst,?_⟩
  · rw [sysRead,if_neg hn,hread]
    exact if_neg hlen.not_lt
  rcases lt_or_ge bounce n with hmore | hlast
  · rw [min_eq_right hmore.le] at *
    exact overrun_plain hline hlen
  · rw [Nat.min_eq_left hlast,Nat.sub_self] at *
    exact iff_of_false (not_overrun_long _ hline hlen.ge) (not_overrun_long [] plain_nil le_rfl)

theorem sysRead_one_line (n : Nat) (got : List Byte) (input : List Input) (hgot : newline ∉ got) :
    OneLine (got ++ firstLine n input) (sysRead n got input) ↔ ¬ Overrun n input := by
  induction n using Nat.strong_induction_on generalizing got input with
  | _ n ih =>
  rcases eq_or_ne n 0 with rfl | hn
  · rw [sysRead,if_pos rfl]
    exact iff_of_true (append_nil _).symm (not_overrun_long [] plain_nil le_rfl)
  obtain ⟨line,rest,rfl,hline,hrest⟩ := exists_plain input
  rcases lt_or_ge line.length (min n bounce) with hlt | hge
  · exact sysRead_short hline hrest hgot hlt
  have hplain : Plain (line.take (min n bounce)) :=
    ⟨fun h => hline.1 (mem_of_mem_take h),fun h => hline.2 (mem_of_mem_take h)⟩
  have hsplit : line.map Input.byte ++ rest = (line.take (min n bounce)).map .byte ++
      ((line.drop (min n bounce)).map .byte ++ rest) := by
    rw [← append_assoc,← map_append,take_append_drop]
  obtain ⟨hread,hfirst,hover⟩ := sysRead_chunk got ((line.drop (min n bounce)).map .byte ++ rest)
    hplain (length_take_of_le hge) hn
  rw [hsplit,hread,hfirst,hover,← append_assoc]
  exact ih _ (by unfold bounce; omega) _ _ fun h => (mem_append.mp h).elim hgot hplain.1

theorem sys_read_console_one_line (n : Nat) (input : List Input) :
    OneLine (firstLine n input) (sysRead n [] input) ↔ ¬ Overrun n input :=
  sysRead_one_line n [] input not_mem_nil

theorem sys_read_console_waits_for_second_line :
    sysRead 129 [] ((List.replicate 127 0x61 ++ [newline]).map .byte) =
        .waits (List.replicate 127 0x61 ++ [newline]) ∧
      ∀ line, ¬ OneLine line (sysRead 129 [] ((List.replicate 127 0x61 ++ [newline]).map .byte)) := by
  have hread : sysRead 129 [] ((replicate 127 0x61 ++ [newline]).map .byte) =
      .waits (replicate 127 0x61 ++ [newline]) := by decide +kernel
  rw [hread]
  exact ⟨rfl,fun _ h => h.2 (by simp)⟩

end TinyOs.Console
