import TinyOs.Mm.HeapRun

namespace TinyOs.KernelHeap

open LinkedList List
open Dyadic (Block)
open Buddy (maxOrder)
open Slab hiding kmalloc kmallocPages cacheRefill takeBlock kfree kmemInit

variable {s s' : Heap} {m m' : Kmem} {slabs : List Nat} {cls : Nat → Nat}
  {live live' : List (Grant Ptr)} {h : Ptr} {g : Grant Ptr} {o : Origin} {r : Result}
  {idx need order size : Nat}

theorem cacheIndex_le (hi : cacheIndex need = some idx) : need ≤ bsize idx := by
  obtain ⟨hlt,hidx⟩ := findIdx?_eq_some_iff_findIdx_eq.mp hi
  have hp := findIdx_getElem (w := hidx ▸ hlt)
  subst hidx
  simpa [bsize,getD_eq_getElem?_getD,getElem?_eq_getElem hlt] using hp

theorem orderFor_le (ho : orderFor need = some order) : need ≤ pgSize * 2 ^ order := by
  simpa using find?_some ho

theorem le_pgRoundUp (h : need ≤ maxRequest + sizeofKhdr) : need ≤ pgRoundUp need := by
  simp only [pgRoundUp,maxRequest,sizeofKhdr,pgSize,word] at *
  omega

inductive Gives (base size : Nat) (live : List (Grant Ptr)) :
    Result → Option Ptr → List (Grant Ptr) → Prop
  | none : Gives base size live none none live
  | some (h : Ptr) (o : Origin) :
      Gives base size live (some (addr base h + sizeofKhdr,o)) (some h) (⟨h,size,o⟩ :: live)

structure Holds (s : Heap) (m : Kmem) (live : List (Grant Ptr)) : Prop where
  cut : ∃ slabs cls, Cut m slabs cls live
  rep : Rep s m live

theorem Holds.perm (hh : Holds s m live) (hp : live.Perm live') : Holds s m live' := by
  obtain ⟨⟨slabs,cls,hc⟩,hr⟩ := hh
  refine ⟨⟨slabs,cls,hc.ok.perm (hp.map _),hc.free,fun g hg => hc.given g (hp.mem_iff.2 hg),
    hc.count⟩,hr.kernel,hr.count,hr.low,hr.high,hr.ring,fun g hg => hr.size g (hp.mem_iff.2 hg),
    fun g hg => hr.magic g (hp.mem_iff.2 hg)⟩

theorem Holds.kmallocPages (hh : Holds s m live) (hsize : size ≤ maxRequest)
    (hs : KernelHeap.kmallocPages s (size + sizeofKhdr) = .ok (s',r)) :
    ∃ m' q live', Slab.kmallocPages m (size + sizeofKhdr) = .ok (m',q) ∧
      Gives s.base size live r q live' ∧ s'.base = s.base ∧ Holds s' m' live' := by
  obtain ⟨⟨slabs,cls,hc⟩,hr⟩ := hh
  unfold KernelHeap.kmallocPages at hs
  unfold Slab.kmallocPages
  rcases ho : orderFor (pgRoundUp (size + sizeofKhdr)) with _ | order
  · rw [ho] at hs
    cases hs
  rw [ho] at hs
  dsimp only at hs ⊢
  split at hs
  · rename_i t ha
    cases hs
    obtain ⟨k,hk,hbase,hc',hr'⟩ := hr.allocPages_none hc ha
    rw [hk]
    exact ⟨_,_,live,rfl,.none,hbase,⟨slabs,cls,hc'⟩,hr'⟩
  rename_i t a ha
  cases hs
  obtain ⟨k,page,hk,hf,rfl,hbase,hrep⟩ := hr.allocPages_some hc ha
  have hroom : size + sizeofKhdr ≤ pgSize * 2 ^ order :=
    (le_pgRoundUp (Nat.add_le_add_right hsize _)).trans (orderFor_le ho)
  rw [hk]
  refine ⟨_,_,_,rfl,.some ⟨page,0⟩ (.pages order),hbase,⟨slabs,cls,hc.pages hf hroom⟩,?_⟩
  have hpos := Nat.two_pow_pos order
  have hfits : 16 ≤ pgSize * 2 ^ order := by
    simp only [pgSize]
    omega
  have hr' := hrep (setHdr t.mem (addr s.base ⟨page,0⟩) (kflagPage ||| order)) fun x hx =>
    setHdr_byte (by omega)
  have hnot : (⟨page,0⟩ : Ptr) ∉ live.map Grant.ptr := fun hin => hf.handed _ hin rfl
  have hlt : kflagPage ||| order < word := by
    have := hf.lt
    revert this
    clear * -
    revert order
    decide
  refine hr'.add hnot ?_ ?_
  · change rd (setHdr t.mem _ _) (addr t.base ⟨page,0⟩ + 8) = _
    rw [hbase]
    exact setHdr_size hlt
  · change rd (setHdr t.mem _ _) (addr t.base ⟨page,0⟩ + 12) = _
    rw [hbase]
    exact setHdr_magic

theorem takeBlock_base (s : Heap) (idx : Nat) : (KernelHeap.takeBlock s idx).1.base = s.base := by
  unfold KernelHeap.takeBlock Heap.base
  rfl

theorem Holds.takeBlock (hh : Holds s m live) (hidx : idx < 7) (hne : m.free idx ≠ [])
    (hroom : size + sizeofKhdr ≤ bsize idx) (hs : KernelHeap.takeBlock s idx = (s',r)) :
    ∃ m' q live', Slab.takeBlock m idx = .ok (m',q) ∧ Gives s.base size live r q live' ∧
      Holds s' m' live' ∧ s'.base = s.base := by
  obtain ⟨⟨slabs,cls,hc⟩,hr⟩ := hh
  cases hfree : m.free idx with
  | nil => exact absurd hfree hne
  | cons h rest =>
    have hbase := takeBlock_base s idx
    obtain ⟨hres,hr'⟩ := hr.takeBlock hc hidx hfree size
    rw [hs] at hres hr' hbase
    have hgives : Gives s.base size live r (some h) (⟨h,size,.cls idx⟩ :: live) := by
      rw [show r = _ from hres]
      exact .some h (.cls idx)
    refine ⟨_,_,_,by rw [Slab.takeBlock,hfree],hgives,⟨?_,hr'⟩,hbase⟩
    exact ⟨slabs,cls,hc.take hidx hfree hroom⟩

theorem Holds.refill (hh : Holds s m live) (hidx : idx < 7)
    (hs : KernelHeap.cacheRefill s idx = .ok s') :
    ∃ m', Slab.cacheRefill m idx = .ok m' ∧ s'.base = s.base ∧ Holds s' m' live ∧
      m'.free idx ≠ [] := by
  obtain ⟨⟨slabs,cls,hc⟩,hr⟩ := hh
  obtain ⟨m',page,hm,hbase,hc',hr'⟩ := hr.refill hc hidx hs
  refine ⟨m',hm,hbase,⟨⟨_,_,hc'⟩,hr'⟩,?_⟩
  unfold Slab.cacheRefill at hm
  split at hm
  · exact nomatch hm
  cases hm
  dsimp only
  rw [Function.update_self]
  exact append_ne_nil_of_left_ne_nil (blocks_ne_nil _ hidx) _

theorem Holds.empty_iff (hh : Holds s m live) (hidx : idx < 7) :
    listEmpty s.mem (head s.cache idx) = true ↔ m.free idx = [] := by
  obtain ⟨⟨slabs,cls,hc⟩,hr⟩ := hh
  rw [(hr.ring idx hidx).empty_iff (hr.spread hc hidx (hc.ok.distinct idx) fun q hq =>
    ⟨_,.free hq⟩),map_eq_nil_iff]

theorem Holds.kmalloc (hh : Holds s m live) (hsize : size ≤ maxRequest)
    (hs : KernelHeap.kmalloc s size = .ok (s',r)) :
    ∃ m' q live', Slab.kmalloc m size = .ok (m',q) ∧ Gives s.base size live r q live' ∧
      s'.base = s.base ∧ Holds s' m' live' := by
  have hneed : (size + sizeofKhdr) % word = size + sizeofKhdr := by
    refine Nat.mod_eq_of_lt ?_
    simp only [maxRequest,sizeofKhdr,word] at hsize ⊢
    omega
  unfold KernelHeap.kmalloc at hs
  unfold Slab.kmalloc
  rw [hneed] at hs ⊢
  split at hs
  case isTrue h0 =>
    rw [if_pos h0]
    cases hs
    exact ⟨m,none,live,rfl,.none,rfl,hh⟩
  case isFalse h0 =>
    rw [if_neg h0]
    dsimp only at hs ⊢
    split at hs
    case isTrue hbig =>
      rw [if_pos hbig]
      exact hh.kmallocPages hsize hs
    case isFalse hbig =>
      rw [if_neg hbig]
      rcases hidx : cacheIndex (size + sizeofKhdr) with _ | idx
      case none =>
        rw [hidx] at hs
        cases hs
      case some =>
        have hlt := cacheIndex_lt hidx
        rw [hidx] at hs
        dsimp only at hs ⊢
        split at hs
        case isTrue hempty =>
          rw [if_pos ((hh.empty_iff hlt).1 hempty)]
          cases hrefill : KernelHeap.cacheRefill s idx with
          | error x =>
            rw [hrefill] at hs
            cases hs
          | ok t =>
            rw [hrefill] at hs
            obtain ⟨m₁,hm₁,hbase,hh₁,hne⟩ := hh.refill hlt hrefill
            obtain ⟨m',q,live',hm',hg,hh',hbase'⟩ :=
              hh₁.takeBlock hlt hne (cacheIndex_le hidx) (Except.ok.inj hs)
            rw [hbase] at hg
            rw [hm₁]
            exact ⟨m',q,live',hm',hg,hbase'.trans hbase,hh'⟩
        case isFalse hempty =>
          have hne : m.free idx ≠ [] := fun he => hempty ((hh.empty_iff hlt).2 he)
          rw [if_neg hne]
          obtain ⟨m',q,live',hm',hg,hh',hbase⟩ :=
            hh.takeBlock hlt hne (cacheIndex_le hidx) (Except.ok.inj hs)
          exact ⟨m',q,live',hm',hg,hbase,hh'⟩

theorem Holds.base_le (hh : Holds s m live) (hg : g ∈ live) : g.size + sizeofKhdr ≤ g.origin.bytes := by
  obtain ⟨⟨slabs,cls,hc⟩,-⟩ := hh
  cases hc.given g hg with
  | small hdr page placed room | pages lt hdr off cut block room => exact room

theorem Holds.clear (hh : Holds s m live) (hg : g ∈ live) :
    Holds { s with mem := clear s.mem (addr s.base g.ptr + sizeofKhdr) g.size } m live := by
  have hroom := hh.base_le hg
  obtain ⟨⟨slabs,cls,hc⟩,hr⟩ := hh
  exact ⟨⟨slabs,cls,hc⟩,hr.frame_payload hc hg fun x hx => clear_byte (by omega)⟩

theorem Holds.kcalloc {n : Nat} (hh : Holds s m live)
    (hsize : n * size ≤ maxRequest ∨ word ≤ n * size)
    (hs : KernelHeap.kcalloc s n size = .ok (s',r)) :
    ∃ m' q live', Gives s.base (n * size) live r q live' ∧ s'.base = s.base ∧ Holds s' m' live' := by
  have hcheck : n ≠ 0 ∧ (word - 1) / n < size ↔ word ≤ n * size := by
    have hw : 0 < word := by decide
    rcases Nat.eq_zero_or_pos n with rfl | hn
    · simp only [ne_eq,not_true_eq_false,false_and,zero_mul,false_iff]
      omega
    · rw [and_iff_right hn.ne',Nat.div_lt_iff_lt_mul hn,mul_comm size]
      omega
  unfold KernelHeap.kcalloc at hs
  split at hs
  case isTrue hover =>
    cases hs
    exact ⟨m,none,live,.none,rfl,hh⟩
  case isFalse hover =>
    have hle : n * size ≤ maxRequest := hsize.resolve_right fun hw => hover (hcheck.2 hw)
    have hmod : n * size % word = n * size := Nat.mod_eq_of_lt (by
      have hw : maxRequest < word := by decide
      omega)
    rw [hmod] at hs
    dsimp only at hs
    cases hk : KernelHeap.kmalloc s (n * size) with
    | error x =>
      rw [hk] at hs
      exact nomatch hs
    | ok t =>
      obtain ⟨t,q⟩ := t
      rw [hk] at hs
      obtain ⟨m',p,live',-,hg,hbase,hh'⟩ := hh.kmalloc hle hk
      cases hg with
      | none =>
        cases hs
        exact ⟨m',none,live,.none,hbase,hh'⟩
      | some h o =>
        have hcl := hh'.clear (g := ⟨h,n * size,o⟩) mem_cons_self
        rw [hbase] at hcl
        have hs' := Except.ok.inj hs
        dsimp only at hs' hcl
        generalize KernelHeap.clear t.mem (addr s.base h + sizeofKhdr) (n * size) = mem at hs' hcl
        obtain ⟨rfl,rfl⟩ := Prod.mk.inj hs'
        exact ⟨m',some h,_,.some h o,hbase,hcl⟩

def Back (m m' : Kmem) (h : Ptr) : Origin → Prop
  | .cls idx => m'.kernel = m.kernel ∧ m'.free = Function.update m.free idx (h :: m.free idx)
  | .pages order => m.kernel.freePages h order = some m'.kernel ∧ m'.free = m.free

theorem ptrAt_addr {base : Nat} (hoff : h.off = 0) : ptrAt base (addr base h) = h := by
  have hsub : addr base h - base = h.page * pgSize := by
    simp only [addr,hoff]
    omega
  refine Ptr.ext ?_ ?_
  · rw [ptrAt,hsub,Nat.mul_div_cancel _ (by decide)]
  · rw [ptrAt,hsub,Nat.mul_mod_left,hoff]

theorem kfree_eq {a x : Nat} (hmagic : rd s.mem (a + 12) = kmagic) (hsize : rd s.mem (a + 8) = x) :
    KernelHeap.kfree s (a + sizeofKhdr) =
      if x &&& kflagPage ≠ 0 then
        match s.kernel.freePages (ptrAt s.base a) (x &&& (kflagPage - 1)) with
        | none => .error .freePages
        | some k => .ok { s with kernel := k, mem := wr s.mem (a + 12) 0 }
      else
        match cacheIndex x with
        | none => .error .badSize
        | some idx =>
          .ok { s with
            mem := listAdd (wr s.mem (a + 12) 0) a (head s.cache idx)
            nrKfree := s.nrKfree + 1 } := by
  have hx : rd (wr s.mem (a + 12) 0) (a + 8) = x := by
    rw [rd_wr_of_apart (by omega),hsize]
  unfold KernelHeap.kfree
  rw [Nat.add_sub_cancel,if_neg (not_not.2 hmagic)]
  dsimp only
  generalize rd (wr s.mem (a + 12) 0) (a + 8) = y at hx ⊢
  subst hx
  rfl

theorem Holds.kfree (hh : Holds s m (g :: live)) :
    ∃ s' m', KernelHeap.kfree s (addr s.base g.ptr + sizeofKhdr) = .ok s' ∧
      Slab.kfree m (some g.ptr) = .ok m' ∧ s'.base = s.base ∧ s'.cache = s.cache ∧
      Holds s' m' live ∧ Back m m' g.ptr g.origin := by
  obtain ⟨⟨slabs,cls,hc⟩,hr⟩ := hh
  have hmagic := hr.magic g mem_cons_self
  have hsize := hr.size g mem_cons_self
  cases hc.given g mem_cons_self with
  | @small h size idx hdr page placed room =>
    have hlt := placed.lt
    have hand : ¬ bsize idx &&& kflagPage ≠ 0 := not_not.2 (bsize_and hlt)
    have hr' := hr.giveBack hc hlt
    have hc' := hc.giveBack
    rw [kfree_eq hmagic (hsize _ hdr),if_neg hand,cacheIndex_bsize hlt]
    dsimp only at hr' ⊢
    generalize listAdd (wr s.mem (addr s.base h + 12) 0) (addr s.base h) (head s.cache idx) = mem
      at hr' ⊢
    refine ⟨_,_,rfl,?_,rfl,rfl,⟨⟨slabs,cls,hc'⟩,hr'⟩,rfl,rfl⟩
    simp only [Slab.kfree,hdr,if_neg hand,cacheIndex_bsize hlt]
  | @pages h size order lt hdr off cut block room =>
    obtain ⟨hflag,hand⟩ := flag_and lt
    obtain ⟨k,hk,hc'⟩ := hc.freePages
    have hr' := hr.freePages hc hk
    have hbase := (kernel_freePages_range hk).1
    rw [← hr.kernel] at hbase
    rw [kfree_eq hmagic (hsize _ hdr),if_pos hflag,hand]
    dsimp only at hr' ⊢
    rw [ptrAt_addr off,hr.kernel,hk]
    dsimp only
    generalize wr s.mem (addr s.base h + 12) 0 = mem at hr' ⊢
    refine ⟨_,_,rfl,?_,hbase,rfl,⟨⟨slabs,cls,hc'⟩,hr'⟩,hk,rfl⟩
    simp only [Slab.kfree,hdr,if_pos hflag,hand,hk]

end TinyOs.KernelHeap
