import TinyOs.Library.Machine

namespace TinyOs.Kbd

open List Machine

open Function (update update_of_ne update_self)

abbrev Byte := BitVec 8

inductive Mod where
  | shift
  | ctrl
  | alt
  | caps
  deriving DecidableEq

structure State where
  mod : Mod → Bool
  e0 : Bool

def table (rows : List (Nat × String)) (key : Nat) : Option Nat :=
  rows.findSome? fun row => if row.1 ≤ key then row.2.toList[key - row.1]?.map Char.toNat else none

def kbdMap : Nat → Option Nat := table [(0x39," "),(0x2b,"\\zxcvbnm,./"),(0x1e,"asdfghjkl;'`"),
  (0x02,"1234567890-=\x08\tqwertyuiop[]\n"),(0x01,"\x1b")]

def kbdShiftMap : Nat → Option Nat := table [(0x39," "),(0x2b,"|ZXCVBNM<>?"),(0x1e,"ASDFGHJKL:\"~"),
  (0x02,"!@#$%^&*()_+\x08\tQWERTYUIOP\x7b\x7d\n"),(0x01,"\x1b")]

def lower (c : Nat) : Bool := 97 ≤ c && c ≤ 122

def upper (c : Nat) : Bool := 65 ≤ c && c ≤ 90

def translate (mod : Mod → Bool) (key : Nat) : Option Nat :=
  ((if mod .shift then kbdShiftMap else kbdMap) key).map fun c =>
    let c := if mod .caps then if lower c then c - 32 else if upper c then c + 32 else c else c
    if mod .ctrl then if lower c then c - 96 else if upper c then c - 64 else c else c

def modifier (key : Byte) : Option Mod :=
  if key = 0x2a ∨ key = 0x36 then some .shift
  else if key = 0x1d then some .ctrl
  else if key = 0x38 then some .alt
  else none

def released (data : Byte) : Bool := data &&& 0x80 ≠ 0

def keyOf (data : Byte) : Byte := data &&& 0x7f

def kbdDecode (s : State) (data : Byte) : State × Option Nat :=
  if data = 0xe0 then ({ s with e0 := true },none)
  else
    match modifier (keyOf data) with
    | some m => (⟨update s.mod m (!released data),false⟩,none)
    | none =>
      if keyOf data = 0x3a then
        (⟨if released data then s.mod else update s.mod .caps (!s.mod .caps),false⟩,none)
      else if released data || s.e0 then ({ s with e0 := false },none)
      else (s,translate s.mod (keyOf data).toNat)

structure Keys where
  held : Bool × Byte → Bool
  e0 : Bool

def real : Mod → List (Bool × Byte)
  | .shift => [(false,0x2a),(false,0x36)]
  | .ctrl => [(false,0x1d),(true,0x1d)]
  | .alt => [(false,0x38),(true,0x38)]
  | .caps => [(false,0x3a)]

namespace Keys

def byte (k : Keys) (data : Byte) : Keys :=
  if data = 0xe0 then { k with e0 := true }
  else ⟨update k.held (k.e0,keyOf data) (!released data),false⟩

def down (k : Keys) (m : Mod) : Bool := (real m).any k.held

def Agrees (k : Keys) (s : State) : Prop := ∀ m, m ≠ .caps → s.mod m = k.down m

def Clean (k : Keys) (data : Byte) : Prop :=
  data ≠ 0xe0 → ∀ m ∈ modifier (keyOf data),
    if (k.e0,keyOf data) ∈ real m then
      released data = true → ∀ x ∈ real m, x ≠ (k.e0,keyOf data) → k.held x = false
    else k.down m = !released data

instance (k : Keys) (data : Byte) : Decidable (k.Clean data) := by
  have : ∀ m, Decidable (∀ x ∈ real m, x ≠ (k.e0,keyOf data) → k.held x = false) :=
    fun m => List.decidableBAll _ (real m)
  unfold Clean
  infer_instance

end Keys

def step (t : Keys × State) (data : Byte) : Option ((Keys × State) × Option Nat) :=
  some ((t.1.byte data,(kbdDecode t.2 data).1),(kbdDecode t.2 data).2)

def init : Keys × State := (⟨fun _ => false,false⟩,⟨fun _ => false,false⟩)

variable {k : Keys} {s : State} {data : Byte} {m : Mod}

theorem real_modifier : ∀ m ≠ Mod.caps, ∀ x ∈ real m, modifier x.2 = some m := by
  intro m hm
  cases m with
  | caps => exact absurd rfl hm
  | _ => decide +kernel

theorem any_update {κ : Type} [DecidableEq κ] {f : κ → Bool} {l : List κ} {x : κ} (v : Bool)
    (hx : x ∈ l) : v = l.any (update f x v) ↔ (v = false → ∀ y ∈ l, y ≠ x → f y = false) := by
  cases v with
  | true =>
    refine iff_of_true (Eq.symm (any_eq_true.mpr ⟨x,hx,update_self ..⟩)) nofun
  | false =>
    rw [eq_comm,any_eq_false]
    refine ⟨fun h _ y hy hne => ?_,fun h y hy => ?_⟩
    · simpa [update_of_ne hne] using h y hy
    · by_cases hne : y = x
      · rw [hne,update_self]
        exact Bool.false_ne_true
      · rw [update_of_ne hne,h rfl y hy hne]
        exact Bool.false_ne_true

theorem down_update {x : Bool × Byte} {v e : Bool} (h : x ∉ real m) :
    Keys.down ⟨update k.held x v,e⟩ m = k.down m := by
  unfold Keys.down
  rw [Bool.eq_iff_iff,any_eq_true,any_eq_true]
  refine exists_congr fun y => and_congr_right fun hy => ?_
  have hne : y ≠ x := fun heq => h (heq ▸ hy)
  exact Bool.eq_iff_iff.mp (update_of_ne hne ..)

theorem decode_e0 (s : State) (data : Byte) : (kbdDecode s data).1.e0 = decide (data = 0xe0) := by
  unfold kbdDecode
  split
  · rename_i hdata
    rw [hdata]
    rfl
  rename_i hdata
  rw [decide_eq_false hdata]
  split
  · rfl
  split
  · rfl
  split
  · rfl
  · rename_i hlast
    exact (Bool.or_eq_false_iff.mp (Bool.not_eq_true _ ▸ hlast)).2

theorem decode_none (hdata : data ≠ 0xe0) (hkey : modifier (keyOf data) = none) (hm : m ≠ .caps) :
    (kbdDecode s data).1.mod m = s.mod m := by
  simp only [kbdDecode,if_neg hdata,hkey]
  split
  · dsimp only
    split
    · rfl
    · exact update_of_ne hm ..
  split <;> rfl

theorem agrees_byte_iff (h : k.Agrees s) :
    (k.byte data).Agrees (kbdDecode s data).1 ↔ k.Clean data := by
  by_cases hdata : data = 0xe0
  · refine iff_of_true (fun m hm => ?_) fun hne => absurd hdata hne
    simp only [Keys.byte,kbdDecode,if_pos hdata]
    exact h m hm
  have hother : ∀ m', m' ≠ .caps → modifier (keyOf data) ≠ some m' →
      (k.byte data).down m' = s.mod m' := by
    intro m' hm' hne
    rw [Keys.byte,if_neg hdata,down_update fun hx => hne (real_modifier m' hm' _ hx),h m' hm']
  cases hkey : modifier (keyOf data) with
  | none =>
    refine iff_of_true (fun m hm => ?_) fun _ m hm => ?_
    · rw [decode_none hdata hkey hm,hother m hm (by rw [hkey]; nofun)]
    · rw [hkey] at hm
      cases hm
  | some m =>
    have hcaps : m ≠ .caps := by
      rintro rfl
      unfold modifier at hkey
      repeat' split at hkey
      all_goals cases hkey
    have hmod : (kbdDecode s data).1.mod = update s.mod m (!released data) := by
      simp only [kbdDecode,if_neg hdata,hkey]
    have hagrees : (k.byte data).Agrees (kbdDecode s data).1 ↔
        (!released data) = (k.byte data).down m := by
      rw [Keys.Agrees,hmod]
      refine ⟨fun ha => by rw [← ha m hcaps,update_self],fun ha m' hm' => ?_⟩
      by_cases heq : m' = m
      · rw [heq,update_self,ha]
      · rw [update_of_ne heq,hother m' hm' (by rw [hkey]; exact fun h => heq (Option.some.inj h).symm)]
    have hclean : k.Clean data ↔ if (k.e0,keyOf data) ∈ real m then
        released data = true → ∀ x ∈ real m, x ≠ (k.e0,keyOf data) → k.held x = false
      else k.down m = !released data := by
      rw [Keys.Clean,hkey]
      exact ⟨fun hc => hc hdata m rfl,fun hc _ m' hm' => by cases hm'; exact hc⟩
    rw [hagrees,hclean,Keys.byte,if_neg hdata]
    split
    · rename_i hx
      rw [Keys.down,any_update _ hx,Bool.not_eq_false']
    · rename_i hx
      rw [down_update hx,eq_comm]

theorem kbd_modifiers_follow_keys (bytes : List Byte) :
    (∀ t outs, Always step (fun t => t.1.Clean) init bytes → run step init bytes = some (t,outs) →
      t.1.Agrees t.2) ∧
    (∀ k s data, Keys.Agrees k s → ((k.byte data).Agrees (kbdDecode s data).1 ↔ k.Clean data)) ∧
    ∀ s data, (kbdDecode s data).1.e0 = decide (data = 0xe0) := by
  refine ⟨fun t outs hgood hrun => ?_,fun k s data h => agrees_byte_iff h,decode_e0⟩
  refine run_keeps (I := fun t => t.1.Agrees t.2) ?_ ?_ hgood hrun
  · intro t data t' o ht hclean hstep
    cases hstep
    exact (agrees_byte_iff ht).mpr hclean
  · intro m hm
    cases m <;> rfl

theorem kbd_modifiers_follow_keys_typed : ∃ t outs,
    run step init [0x2a,0x1e,0x9e,0xaa,0xe0,0x1d] = some (t,outs) ∧ t.2.mod .ctrl = true ∧
      t.1.Agrees t.2 := by
  refine run_shows (fun t => t.2.mod .ctrl = true) (by decide +kernel) ?_
  intro t outs hrun ht
  exact ⟨ht,(kbd_modifiers_follow_keys _).1 t outs (by decide +kernel) hrun⟩

theorem shift_lost : ∃ t outs, run step init [0x2a,0x36,0xaa] = some (t,outs) ∧
    t.1.down .shift = true ∧ t.2.mod .shift = false :=
  run_reaches (by decide +kernel)

end TinyOs.Kbd
