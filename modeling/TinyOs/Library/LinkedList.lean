import Mathlib.Algebra.Order.Ring.Nat
import Mathlib.Data.List.Pairwise

namespace LinkedList

open List

variable {next prev next' prev' : Nat → Nat}

abbrev Mem := Nat → UInt8

def rd (m : Mem) (a : Nat) : Nat :=
  (m a).toNat + (m (a + 1)).toNat * 2 ^ 8 + (m (a + 2)).toNat * 2 ^ 16 + (m (a + 3)).toNat * 2 ^ 24

def wr (m : Mem) (a v : Nat) : Mem := fun x =>
  if a ≤ x ∧ x < a + 4 then UInt8.ofNat (v / 2 ^ (8 * (x - a))) else m x

variable {m m' : Mem} {a b v head node x y z : Nat} {l : List Nat}

theorem wr_of_not_mem (h : ¬ (a ≤ x ∧ x < a + 4)) : wr m a v x = m x := if_neg h

theorem rd_congr (h : ∀ i < 4, m (a + i) = m' (a + i)) : rd m a = rd m' a := by
  have h0 := h 0 (by decide)
  have h1 := h 1 (by decide)
  have h2 := h 2 (by decide)
  have h3 := h 3 (by decide)
  rw [add_zero] at h0
  rw [rd,rd,h0,h1,h2,h3]

theorem rd_wr_self (hv : v < 2 ^ 32) : rd (wr m a v) a = v := by
  have hbyte : ∀ i < 4, wr m a v (a + i) = UInt8.ofNat (v / 2 ^ (8 * i)) := by
    intro i hi
    rw [wr,if_pos ⟨by omega,by omega⟩,Nat.add_sub_cancel_left]
  have h0 := hbyte 0 (by decide)
  rw [add_zero] at h0
  rw [rd,h0,hbyte 1 (by decide),hbyte 2 (by decide),hbyte 3 (by decide)]
  simp only [UInt8.toNat_ofNat']
  omega

theorem rd_wr_of_apart (h : a + 4 ≤ b ∨ b + 4 ≤ a) : rd (wr m a v) b = rd m b :=
  rd_congr fun i hi => wr_of_not_mem (by omega)

def initList (m : Mem) (node : Nat) : Mem := wr (wr m node node) (node + 4) node

def listEmpty (m : Mem) (head : Nat) : Bool := rd m head == head

def listAdd (m : Mem) (node head : Nat) : Mem :=
  let next := rd m head
  wr (wr (wr (wr m (next + 4) node) node next) (node + 4) head) head node

def listDel (m : Mem) (node : Nat) : Mem :=
  let m := wr m (rd m node + 4) (rd m (node + 4))
  let m := wr m (rd m (node + 4)) (rd m node)
  wr (wr m node node) (node + 4) node

def Apart (a b : Nat) : Prop := a + 8 ≤ b ∨ b + 8 ≤ a

instance : Std.Symm Apart := ⟨fun _ _ h => Or.symm h⟩

structure Spread (l : List Nat) : Prop where
  apart : l.Pairwise Apart
  fits : ∀ a ∈ l, a < 2 ^ 32

theorem Spread.eq_or_apart (h : Spread l) (ha : a ∈ l) (hb : b ∈ l) : a = b ∨ Apart a b := by
  by_cases hab : a = b
  · exact .inl hab
  · exact .inr (h.apart.forall ha hb hab)

theorem Spread.perm {l' : List Nat} (h : Spread l) (hp : l.Perm l') : Spread l' where
  apart := (hp.pairwise_iff fun hab => Std.Symm.symm _ _ hab).1 h.apart
  fits a ha := h.fits a (hp.mem_iff.2 ha)

theorem Spread.nodup (h : Spread l) : l.Nodup := h.apart.imp fun hab he => by
    subst he
    rcases hab with h | h <;> omega

def Seg (next prev : Nat → Nat) : Nat → List Nat → Nat → Prop
  | a, [], z => next a = z ∧ prev z = a
  | a, b :: l, z => next a = b ∧ prev b = a ∧ Seg next prev b l z

def Ring (m : Mem) (head : Nat) (l : List Nat) : Prop := Seg (rd m) (fun a => rd m (a + 4)) head l head

theorem Seg.congr (h : Seg next prev a l z)
    (hnext : ∀ x ∈ a :: l, next' x = next x) (hprev : ∀ x ∈ l ++ [z], prev' x = prev x) :
    Seg next' prev' a l z := by
  induction l generalizing a with
  | nil =>
    refine ⟨?_,?_⟩
    · rw [hnext a mem_cons_self]
      exact h.1
    · rw [hprev z (mem_append_right _ mem_cons_self)]
      exact h.2
  | cons b l ih =>
    obtain ⟨h1,h2,h3⟩ := h
    refine ⟨?_,?_,ih h3 (fun x hx => hnext x (mem_cons_of_mem _ hx)) fun x hx =>
      hprev x (mem_cons_of_mem _ hx)⟩
    · rw [hnext a mem_cons_self]
      exact h1
    · rw [hprev b mem_cons_self]
      exact h2

theorem Seg.redirect (h : Seg next prev a l z)
    (hnd : (z :: l).Nodup) (hfirst : next' b = next a) (hnext : ∀ y ∈ l, next' y = next y)
    (hprev : ∀ y ∈ z :: l, prev' y = if y = next a then b else prev y) : Seg next' prev' b l z := by
  obtain ⟨hz,hnd⟩ := nodup_cons.1 hnd
  cases l with
  | nil =>
    refine ⟨hfirst.trans h.1,?_⟩
    rw [hprev z mem_cons_self,if_pos h.1.symm]
  | cons c l =>
    obtain ⟨hc,-⟩ := nodup_cons.1 hnd
    rw [h.1] at hfirst hprev
    refine ⟨hfirst,?_,h.2.2.congr hnext fun y hy => ?_⟩
    · rw [hprev c (mem_cons_of_mem _ mem_cons_self),if_pos rfl]
    rcases mem_append.1 hy with hy | hy
    · have hyc : y ≠ c := fun he => hc (he ▸ hy)
      rw [hprev y (mem_cons_of_mem _ (mem_cons_of_mem _ hy)),if_neg hyc]
    · have hzc : z ≠ c := fun he => hz (he ▸ mem_cons_self)
      rw [mem_singleton.1 hy,hprev z mem_cons_self,if_neg hzc]

theorem Ring.congr (h : Ring m head l) (hm : ∀ x ∈ head :: l, ∀ i < 8, m' (x + i) = m (x + i)) :
    Ring m' head l := by
  have hword : ∀ x ∈ head :: l, rd m' x = rd m x ∧ rd m' (x + 4) = rd m (x + 4) := by
    intro x hx
    refine ⟨rd_congr fun i hi => hm x hx i (by omega),rd_congr fun i hi => ?_⟩
    rw [add_assoc]
    exact hm x hx (4 + i) (by omega)
  refine Seg.congr h (fun x hx => (hword x hx).1) fun x hx => (hword x ?_).2
  rcases mem_append.1 hx with hx | hx
  · exact mem_cons_of_mem _ hx
  · exact mem_singleton.1 hx ▸ mem_cons_self

theorem Seg.next_mem (h : Seg next prev a l z) : next a ∈ z :: l := by
  cases l with
  | nil =>
    rw [h.1]
    exact mem_cons_self
  | cons b l =>
    rw [h.1]
    exact mem_cons_of_mem _ mem_cons_self

theorem ring_init (hv : head < 2 ^ 32) : Ring (initList m head) head [] := by
  refine ⟨?_,rd_wr_self hv⟩
  rw [initList,rd_wr_of_apart (by omega),rd_wr_self hv]

theorem Ring.empty_iff (h : Ring m head l) (hs : Spread (head :: l)) :
    listEmpty m head = true ↔ l = [] := by
  rw [listEmpty,beq_iff_eq]
  cases l with
  | nil => exact ⟨fun _ => rfl,fun _ => h.1⟩
  | cons b l =>
    refine ⟨fun he => ?_,nofun⟩
    rw [h.1] at he
    exact absurd he fun he => (nodup_cons.1 hs.nodup).1 (he ▸ mem_cons_self)

theorem Ring.first (h : Ring m head (x :: l)) : rd m head = x := h.1

theorem initList_byte (h : ¬ (node ≤ x ∧ x < node + 8)) : initList m node x = m x := by
  rw [initList,wr_of_not_mem (by omega),wr_of_not_mem (by omega)]

theorem Ring.listAdd_byte (h : Ring m head l)
    (hx : ∀ y ∈ node :: head :: l, ¬ (y ≤ x ∧ x < y + 8)) : listAdd m node head x = m x := by
  have hnext := hx _ (mem_cons_of_mem _ (Seg.next_mem h))
  have hnode := hx node mem_cons_self
  have hhead := hx head (mem_cons_of_mem _ mem_cons_self)
  simp only [listAdd]
  rw [wr_of_not_mem (by omega),wr_of_not_mem (by omega),wr_of_not_mem (by omega),
    wr_of_not_mem (by omega)]

theorem Ring.add (h : Ring m head l) (hs : Spread (node :: head :: l)) :
    Ring (listAdd m node head) head (node :: l) := by
  have hnext := Seg.next_mem h
  have hfits := hs.fits
  obtain ⟨hnew,hnd⟩ := nodup_cons.1 hs.nodup
  have hin : ∀ {y}, y ∈ head :: l → y ∈ node :: head :: l := mem_cons_of_mem _
  have hself : head ∈ head :: l := mem_cons_self
  have hnode : ∀ {y}, y ∈ head :: l → Apart y node := fun hy =>
    (hs.eq_or_apart (hin hy) mem_cons_self).resolve_left fun he => hnew (he ▸ hy)
  obtain ⟨next,hn⟩ : ∃ next, next = rd m head := ⟨_,rfl⟩
  rw [← hn] at hnext
  have h1 := hnode hself
  have h2 := hnode hnext
  simp only [Apart] at h1 h2
  refine ⟨rd_wr_self (hfits _ mem_cons_self),?_,Seg.redirect h hnd ?_ ?_ ?_⟩ <;>
    simp only [listAdd,← hn]
  · rw [rd_wr_of_apart (by omega),rd_wr_self (hfits _ (hin hself))]
  · rw [rd_wr_of_apart (by omega),rd_wr_of_apart (by omega),rd_wr_self (hfits _ (hin hnext))]
  · intro y hy
    have hy' := mem_cons_of_mem head hy
    have h3 := hnode hy'
    have h4 := (hs.eq_or_apart (hin hy') (hin hself)).resolve_left fun he =>
      (nodup_cons.1 hnd).1 (he ▸ hy)
    have h5 := hs.eq_or_apart (hin hy') (hin hnext)
    simp only [Apart] at h3 h4 h5
    rw [rd_wr_of_apart (by omega),rd_wr_of_apart (by omega),rd_wr_of_apart (by omega),
      rd_wr_of_apart (by omega)]
  · intro y hy
    have h3 := hnode hy
    have h4 := hs.eq_or_apart (hin hy) (hin hself)
    have h5 := hs.eq_or_apart (hin hy) (hin hnext)
    simp only [Apart] at h3 h4 h5
    rw [rd_wr_of_apart (by omega),rd_wr_of_apart (by omega),rd_wr_of_apart (by omega)]
    split
    · subst y
      exact rd_wr_self (hfits _ mem_cons_self)
    · rw [rd_wr_of_apart (by omega)]

theorem Spread.tail (hs : Spread (head :: x :: l)) (hy : y ∈ head :: l) :
    y ∈ head :: x :: l ∧ y ≠ x := by
  obtain ⟨hhead,hnd⟩ := nodup_cons.1 hs.nodup
  obtain ⟨hout,-⟩ := nodup_cons.1 hnd
  rcases mem_cons.1 hy with rfl | hy
  · exact ⟨mem_cons_self,fun he => hhead (he ▸ mem_cons_self)⟩
  · exact ⟨mem_cons_of_mem _ (mem_cons_of_mem _ hy),fun he => hout (he ▸ hy)⟩

theorem Ring.listDel_eq (h : Ring m head (x :: l)) (hs : Spread (head :: x :: l)) :
    listDel m x = wr (wr (wr (wr m (rd m x + 4) head) head (rd m x)) x x) (x + 4) x := by
  have hprev : rd m (x + 4) = head := h.2.1
  have hx : x ∈ head :: x :: l := mem_cons_of_mem _ mem_cons_self
  have hafter := hs.tail (Seg.next_mem h.2.2)
  have hapart := (hs.eq_or_apart hafter.1 hx).resolve_left hafter.2
  simp only [Apart] at hapart
  simp only [listDel,hprev]
  rw [rd_wr_of_apart (b := x + 4) (by omega),rd_wr_of_apart (b := x) (by omega),hprev]

theorem Ring.listDel_byte (h : Ring m head (x :: l)) (hs : Spread (head :: x :: l))
    (hy : ∀ z ∈ head :: x :: l, ¬ (z ≤ y ∧ y < z + 8)) : listDel m x y = m y := by
  have h1 := hy _ (hs.tail (Seg.next_mem h.2.2)).1
  have h2 := hy head mem_cons_self
  have h3 := hy x (mem_cons_of_mem _ mem_cons_self)
  rw [h.listDel_eq hs,wr_of_not_mem (by omega),wr_of_not_mem (by omega),wr_of_not_mem (by omega),
    wr_of_not_mem (by omega)]

theorem Ring.del (h : Ring m head (x :: l)) (hs : Spread (head :: x :: l)) :
    Ring (listDel m x) head l := by
  have hnext := Seg.next_mem h.2.2
  have hfits := hs.fits
  obtain ⟨hhead,hnd⟩ := nodup_cons.1 hs.nodup
  obtain ⟨-,hnd⟩ := nodup_cons.1 hnd
  have hself : head ∈ head :: l := mem_cons_self
  have hin : ∀ {y}, y ∈ head :: l → y ∈ head :: x :: l ∧ y ≠ x := hs.tail
  have hx : ∀ {y}, y ∈ head :: l → Apart y x := fun hy =>
    (hs.eq_or_apart (hin hy).1 (mem_cons_of_mem _ mem_cons_self)).resolve_left (hin hy).2
  have hhead' : head ∉ l := fun hl => hhead (mem_cons_of_mem _ hl)
  obtain ⟨next,hn⟩ : ∃ next, next = rd m x := ⟨_,rfl⟩
  rw [← hn] at hnext
  have h1 := hx hself
  simp only [Apart] at h1
  refine Seg.redirect h.2.2 (nodup_cons.2 ⟨hhead',hnd⟩) ?_ ?_ ?_ <;>
    rw [h.listDel_eq hs,← hn]
  · rw [rd_wr_of_apart (by omega),rd_wr_of_apart (by omega),rd_wr_self (hfits _ (hin hnext).1)]
  · intro y hy
    have hy' := mem_cons_of_mem head hy
    have h2 := hx hy'
    have h3 := (hs.eq_or_apart (hin hy').1 (hin hself).1).resolve_left fun he => hhead' (he ▸ hy)
    have h4 := hs.eq_or_apart (hin hy').1 (hin hnext).1
    simp only [Apart] at h2 h3 h4
    rw [rd_wr_of_apart (by omega),rd_wr_of_apart (by omega),rd_wr_of_apart (by omega),
      rd_wr_of_apart (by omega)]
  intro y hy
  have h2 := hx hy
  have h3 := hs.eq_or_apart (hin hy).1 (hin hself).1
  have h4 := hs.eq_or_apart (hin hy).1 (hin hnext).1
  simp only [Apart] at h2 h3 h4
  rw [rd_wr_of_apart (by omega),rd_wr_of_apart (by omega),rd_wr_of_apart (by omega)]
  split
  · subst y
    exact rd_wr_self (hfits _ (hin hself).1)
  · rw [rd_wr_of_apart (by omega)]

end LinkedList
