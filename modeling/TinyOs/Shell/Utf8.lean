import Mathlib.Algebra.Ring.Nat

namespace TinyOs.Shell

open List

def utf8ExpectedLen (c : UInt8) : Nat :=
  if c < 0x80 then 1
  else if c &&& 0xe0 = 0xc0 then 2
  else if c &&& 0xf0 = 0xe0 then 3
  else if c &&& 0xf8 = 0xf0 then 4
  else 1

def isContinuation (c : UInt8) : Bool := c &&& 0xc0 == 0x80

def utf8Nbytes : List UInt8 → Nat
  | [] => 0
  | c :: s =>
    if s.length + 1 < utf8ExpectedLen c then 1
    else if (s.take (utf8ExpectedLen c - 1)).all isContinuation then utf8ExpectedLen c
    else 1

def utf8PrevLoop (buf : List UInt8) : Nat → Nat
  | 0 => 0
  | i + 1 => if isContinuation (buf.getD (i + 1) 0) then utf8PrevLoop buf i else i + 1

def utf8Prev (buf : List UInt8) (pos : Nat) : Nat := utf8PrevLoop buf (pos - 1)

def utf8Decode (s : List UInt8) (n : Nat) : Nat :=
  let bits (i : Nat) (mask : UInt8) : Nat := (s.getD i 0 &&& mask).toNat
  if n ≤ 1 then (s.getD 0 0).toNat
  else if n = 2 then bits 0 0x1f * 2 ^ 6 + bits 1 0x3f
  else if n = 3 then bits 0 0x0f * 2 ^ 12 + bits 1 0x3f * 2 ^ 6 + bits 2 0x3f
  else bits 0 0x07 * 2 ^ 18 + bits 1 0x3f * 2 ^ 12 + bits 2 0x3f * 2 ^ 6 + bits 3 0x3f

def wideRanges : List (Nat × Nat) :=
  [(0x1100,0x115f),(0x2329,0x232a),(0x2e80,0xa4cf),(0xac00,0xd7a3),(0xf900,0xfaff),(0xfe10,0xfe19),
    (0xfe30,0xfe6f),(0xff00,0xff60),(0xffe0,0xffe6),(0x1f300,0x1f64f),(0x20000,0x3fffd)]

def utf8CharWidth (s : List UInt8) (n : Nat) : Nat :=
  if n ≤ 1 then 1
  else if wideRanges.any fun r => r.1 ≤ utf8Decode s n ∧ utf8Decode s n ≤ r.2 then 2
  else 1

def dispWidthLoop : Nat → List UInt8 → Nat
  | 0, _ => 0
  | n + 1, s =>
    if utf8Nbytes s = 0 then 0
    else utf8CharWidth s (utf8Nbytes s) + dispWidthLoop n (s.drop (utf8Nbytes s))

def strDispWidth (s : List UInt8) : Nat := dispWidthLoop s.length s

def cursorLeft (n : Nat) : List UInt8 := replicate n 0x08

def slice (buf : List UInt8) (start stop : Nat) : List UInt8 := (buf.drop start).take (stop - start)

inductive Move where
  | left
  | right
  | home
  | ending

def editLeft (buf : List UInt8) (pos : Nat) : Nat × List UInt8 :=
  if pos = 0 then (pos,[])
  else
    let prev := utf8Prev buf pos
    (prev,cursorLeft (strDispWidth (slice buf prev pos)))

def editRight (buf : List UInt8) (pos : Nat) : Nat × List UInt8 :=
  if buf.length ≤ pos then (pos,[])
  else
    let n := utf8Nbytes (buf.drop pos)
    (pos + n,slice buf pos (pos + n))

def editHome (buf : List UInt8) (pos : Nat) : Nat × List UInt8 :=
  (0,cursorLeft (strDispWidth (slice buf 0 pos)))

def editEnd (buf : List UInt8) (pos : Nat) : Nat × List UInt8 :=
  if pos < buf.length then (buf.length,slice buf pos buf.length) else (pos,[])

def Move.edit (buf : List UInt8) (pos : Nat) : Move → Nat × List UInt8
  | left => editLeft buf pos
  | right => editRight buf pos
  | home => editHome buf pos
  | ending => editEnd buf pos

def readlineByte (r : List UInt8 × List UInt8 × Nat) (c : UInt8) : List UInt8 × List UInt8 × Nat :=
  let (buf,pending,need) := r
  let (pending,need) :=
    if isContinuation c ∧ pending.length < need ∧ pending ≠ [] then (pending ++ [c],need)
    else ([c],utf8ExpectedLen c)
  if pending.length < need then (buf,pending,need) else (buf ++ pending,[],0)

inductive Boundary (buf : List UInt8) : Nat → Prop
  | zero : Boundary buf 0
  | next {p : Nat} : Boundary buf p → p < buf.length → Boundary buf (p + utf8Nbytes (buf.drop p))

def Clean (buf : List UInt8) : Prop :=
  ∀ p, Boundary buf p → 0 < p → p < buf.length → isContinuation (buf.getD p 0) = false

def Passes (buf : List UInt8) (p : Nat) (r : Nat × List UInt8) : Prop :=
  r.2 = if r.1 < p then cursorLeft (strDispWidth (slice buf r.1 p)) else slice buf p r.1

variable {buf : List UInt8} {p : Nat}

theorem expectedLen_pos (c : UInt8) : 0 < utf8ExpectedLen c := by
  unfold utf8ExpectedLen
  split_ifs <;> decide

theorem expectedLen_continuation {c : UInt8} (hc : isContinuation c = true) :
    utf8ExpectedLen c = 1 := by
  have h : ∀ n < 256, isContinuation (UInt8.ofNat n) = true → utf8ExpectedLen (UInt8.ofNat n) = 1 := by
    decide +kernel
  have hn := h c.toNat c.toNat_lt
  rw [UInt8.ofNat_toNat] at hn
  exact hn hc

theorem nbytes_spec (hp : p < buf.length) : 0 < utf8Nbytes (buf.drop p) ∧
    p + utf8Nbytes (buf.drop p) ≤ buf.length ∧
    (∀ i, p < i → i < p + utf8Nbytes (buf.drop p) → isContinuation (buf.getD i 0) = true) ∧
    (isContinuation (buf.getD p 0) = true → utf8Nbytes (buf.drop p) = 1) := by
  have hlen : (buf.drop (p + 1)).length + 1 = buf.length - p := by
    rw [length_drop]
    omega
  have hpos := expectedLen_pos buf[p]
  have hget : buf.getD p 0 = buf[p] := by
    rw [getD_eq_getElem?_getD,getElem?_eq_getElem hp,Option.getD_some]
  rw [drop_eq_getElem_cons hp,utf8Nbytes,hget]
  split_ifs with hshort hall
  · exact ⟨by omega,by omega,fun i hi hi' => by omega,fun _ => rfl⟩
  · refine ⟨hpos,by omega,fun i hi hi' => ?_,expectedLen_continuation⟩
    refine all_eq_true.mp hall _ (mem_iff_getElem?.mpr ⟨i - p - 1,?_⟩)
    rw [getElem?_take_of_lt (by omega),getElem?_drop,getD_eq_getElem?_getD,
      show p + 1 + (i - p - 1) = i by omega,getElem?_eq_getElem (by omega)]
    rfl
  · exact ⟨by omega,by omega,fun i hi hi' => by omega,fun _ => rfl⟩

theorem prevLoop_le (buf : List UInt8) (i : Nat) : utf8PrevLoop buf i ≤ i := by
  induction i with
  | zero => exact Nat.le_refl 0
  | succ i ih =>
    rw [utf8PrevLoop]
    split <;> omega

theorem prevLoop_stops (buf : List UInt8) (i : Nat) :
    utf8PrevLoop buf i = 0 ∨ isContinuation (buf.getD (utf8PrevLoop buf i) 0) = false := by
  induction i with
  | zero => exact .inl rfl
  | succ i ih =>
    rw [utf8PrevLoop]
    split
    · exact ih
    · rename_i hc
      exact .inr (Bool.eq_false_iff.mpr hc)

theorem prevLoop_eq {i : Nat} (hp : p = 0 ∨ isContinuation (buf.getD p 0) = false) (hi : p ≤ i)
    (h : ∀ j, p < j → j ≤ i → isContinuation (buf.getD j 0) = true) : utf8PrevLoop buf i = p := by
  induction i with
  | zero => exact (Nat.le_zero.mp hi).symm
  | succ i ih =>
    rw [utf8PrevLoop]
    rcases Nat.lt_or_ge i p with hlt | hge
    · obtain rfl : p = i + 1 := by omega
      rw [hp.resolve_left (Nat.succ_ne_zero i),if_neg Bool.false_ne_true]
    · rw [h (i + 1) (by omega) (Nat.le_refl _),if_pos rfl]
      exact ih hge fun j hj hj' => h j hj (by omega)

theorem boundary_below (hp : p ≤ buf.length) : Boundary buf p ∨ ∃ q, Boundary buf q ∧ q < p ∧
    p < q + utf8Nbytes (buf.drop q) ∧ q < buf.length := by
  induction p with
  | zero => exact .inl .zero
  | succ p ih =>
    rcases ih (by omega) with hb | ⟨q,hq,hlt,hin,hlen⟩
    · have hlt : p < buf.length := by omega
      have hn := (nbytes_spec hlt).1
      rcases Nat.lt_or_ge (p + 1) (p + utf8Nbytes (buf.drop p)) with hk | hk
      · exact .inr ⟨p,hb,by omega,hk,by omega⟩
      · left
        have heq : p + 1 = p + utf8Nbytes (buf.drop p) := by omega
        rw [heq]
        exact .next hb (by omega)
    · rcases Nat.lt_or_ge (p + 1) (q + utf8Nbytes (buf.drop q)) with hk | hk
      · exact .inr ⟨q,hq,by omega,hk,hlen⟩
      · left
        have heq : p + 1 = q + utf8Nbytes (buf.drop q) := by omega
        rw [heq]
        exact .next hq hlen

theorem boundary_of_lead (hp : p < buf.length) (hc : isContinuation (buf.getD p 0) = false) :
    Boundary buf p := by
  rcases boundary_below (Nat.le_of_lt hp) with hb | ⟨q,-,hlt,hin,hlen⟩
  · exact hb
  · rw [(nbytes_spec hlen).2.2.1 p hlt hin] at hc
    cases hc

theorem boundary_end : Boundary buf buf.length := by
  rcases boundary_below (Nat.le_refl buf.length) with hb | ⟨q,-,-,hin,hlen⟩
  · exact hb
  · have hle := (nbytes_spec hlen).2.1
    omega

theorem Boundary.le (hp : Boundary buf p) : p ≤ buf.length := by
  cases hp with
  | zero => exact Nat.zero_le _
  | next _ hlt => exact (nbytes_spec hlt).2.1

theorem Boundary.edit (hp : Boundary buf p) (mv : Move) : Boundary buf (mv.edit buf p).1 := by
  cases mv with
  | left =>
    change Boundary buf (editLeft buf p).1
    unfold editLeft
    split
    · exact hp
    · rename_i hne
      have hle := prevLoop_le buf (p - 1)
      have hlen := hp.le
      change Boundary buf (utf8PrevLoop buf (p - 1))
      rcases prevLoop_stops buf (p - 1) with hz | hc
      · exact hz ▸ .zero
      · exact boundary_of_lead (by omega) hc
  | right =>
    change Boundary buf (editRight buf p).1
    unfold editRight
    split
    · exact hp
    · exact .next hp (by omega)
  | home => exact .zero
  | ending =>
    change Boundary buf (editEnd buf p).1
    unfold editEnd
    split
    · exact boundary_end
    · exact hp

theorem right_left (h : Clean buf) (hp : Boundary buf p) (hlt : p < buf.length) :
    (editLeft buf (editRight buf p).1).1 = p := by
  obtain ⟨hpos,-,hcont,-⟩ := nbytes_spec hlt
  have hlead : p = 0 ∨ isContinuation (buf.getD p 0) = false := by
    rcases Nat.eq_zero_or_pos p with hz | hz
    · exact .inl hz
    · exact .inr (h p hp hz hlt)
  rw [editRight,if_neg (Nat.not_le.mpr hlt),editLeft,if_neg (by dsimp only; omega)]
  exact prevLoop_eq hlead (by dsimp only; omega) fun j hj hj' => hcont j hj
    (by dsimp only at hj'; omega)

theorem reached_boundary (hp : Boundary buf p) (moves : List Move) :
    Boundary buf (moves.foldl (fun p mv => (mv.edit buf p).1) p) := by
  induction moves generalizing p with
  | nil => exact hp
  | cons mv moves ih => exact ih (hp.edit mv)

theorem boundary_reached (hp : Boundary buf p) :
    ∃ moves : List Move, moves.foldl (fun p mv => (mv.edit buf p).1) 0 = p := by
  induction hp with
  | zero => exact ⟨[],rfl⟩
  | @next p _ hlt ih =>
    obtain ⟨moves,hmoves⟩ := ih
    refine ⟨moves ++ [.right],?_⟩
    rw [foldl_append,hmoves]
    change (editRight buf p).1 = _
    rw [editRight,if_neg (Nat.not_le.mpr hlt)]

theorem cursor_reversible (buf : List UInt8) :
    ((∀ moves : List Move, ∀ p, p = moves.foldl (fun p mv => (mv.edit buf p).1) 0 →
        (p < buf.length → (editLeft buf (editRight buf p).1).1 = p) ∧
        (0 < p → (editRight buf (editLeft buf p).1).1 = p)) ↔ Clean buf) ∧
    ∀ (mv : Move) (p : Nat), Passes buf p (mv.edit buf p) := by
  refine ⟨⟨fun h p hp hpos hlt => ?_,fun h moves p hp => ?_⟩,fun mv p => ?_⟩
  · by_contra hc
    rw [Bool.not_eq_false] at hc
    obtain ⟨moves,hmoves⟩ := boundary_reached hp
    have hback := (h moves p hmoves.symm).1 hlt
    obtain ⟨p,rfl⟩ := Nat.exists_eq_succ_of_ne_zero (Nat.ne_of_gt hpos)
    rw [editRight,if_neg (Nat.not_le.mpr hlt),(nbytes_spec hlt).2.2.2 hc] at hback
    change utf8PrevLoop buf (p + 1) = p + 1 at hback
    rw [utf8PrevLoop,if_pos hc] at hback
    have hle := prevLoop_le buf p
    omega
  · have hb : Boundary buf p := hp ▸ reached_boundary .zero moves
    refine ⟨right_left h hb,fun hpos => ?_⟩
    cases hb with
    | zero => exact absurd hpos (Nat.lt_irrefl 0)
    | @next q hq hlt =>
      have hright : (editRight buf q).1 = q + utf8Nbytes (buf.drop q) := by
        rw [editRight,if_neg (Nat.not_le.mpr hlt)]
      rw [← hright,right_left h hq hlt]
  · have hstay : Passes buf p (p,[]) := by simp [Passes,slice]
    cases mv with
    | left =>
      change Passes buf p (editLeft buf p)
      unfold editLeft
      split
      · exact hstay
      · have hle := prevLoop_le buf (p - 1)
        exact (if_pos (by dsimp only [utf8Prev]; omega)).symm
    | right =>
      change Passes buf p (editRight buf p)
      unfold editRight
      split
      · exact hstay
      · exact (if_neg (by dsimp only; omega)).symm
    | home =>
      cases p with
      | zero => rfl
      | succ p => exact (if_pos (Nat.succ_pos p)).symm
    | ending =>
      change Passes buf p (editEnd buf p)
      unfold editEnd
      split
      · exact (if_neg (by dsimp only; omega)).symm
      · exact hstay

theorem stray_continuation_skipped :
    ([0x61,0x80].foldl readlineByte ([],[],0)).1 = [0x61,0x80] ∧
    (editEnd [0x61,0x80] 0).1 = 2 ∧ (editLeft [0x61,0x80] 2).1 = 0 ∧
    (editRight [0x61,0x80] 0).1 = 1 := by
  decide +kernel

end TinyOs.Shell
