import TinyOs.Ext2.Dir
import TinyOs.Fs.Namei

namespace TinyOs.Ext2Dir

open Ext2Read List
open Fs (Path dirSiz dot slash skipelem)

def Entry.bytes (de : Entry) : Path := (List.range de.nameLen).map de.name

def namecmpN (de : Entry) (b : Path) (n : Nat) : Int :=
  if ∀ i < n, de.name i = b.getD i 0 then if b.getD n 0 ≠ 0 then 1 else 0 else -1

def lookupCb (name : Path) (de : Entry) (inum : Nat) : Nat × Int :=
  if namecmpN de name de.nameLen = 0 then (de.inode,1) else (inum,0)

structure Node where
  sb : Super
  dir : Inode
  f : Faults
  self : Nat
  parent : Nat
  supports : Nat → Bool

namespace Node

variable (d : Node)

def entries : List Entry := Ext2Dir.entries d.sb d.dir d.f

def ext2Lookup (name : Path) : Option Nat :=
  let r := ext2DirIterate d.sb d.dir d.f (lookupCb name) 0
  if r.2 ≠ 1 ∨ r.1 = 0 then none else if d.supports r.1 then some r.1 else none

def resolve (path : Path) : Option Nat := (skipelem path).bind fun (name,_) =>
    if name = [dot] then some d.self
    else if name = [dot,dot] then some d.parent
    else d.ext2Lookup name

end Node

def Entry.listed (de : Entry) : Path := de.bytes.take (dirSiz - 1)

structure Component (c : Path) : Prop where
  ne_nil : c ≠ []
  no_slash : slash ∉ c
  no_zero : 0 ∉ c

instance (c : Path) : Decidable (Component c) := decidable_of_iff (c ≠ [] ∧ slash ∉ c ∧ 0 ∉ c)
    ⟨fun h => ⟨h.1,h.2.1,h.2.2⟩,fun h => ⟨h.ne_nil,h.no_slash,h.no_zero⟩⟩

structure Node.Valid (d : Node) : Prop where
  names : ∀ de ∈ d.entries, Component de.bytes
  unique : ∀ de ∈ d.entries, ∀ de' ∈ d.entries, de.bytes = de'.bytes → de = de'
  used : ∀ de ∈ d.entries, de.inode ≠ 0
  own : ∃ de ∈ d.entries, de.bytes = [dot] ∧ de.inode = d.self
  up : ∃ de ∈ d.entries, de.bytes = [dot,dot]

structure Node.Agree (d : Node) : Prop where
  listed : ∀ de ∈ d.entries, d.supports de.inode → d.resolve de.listed = some de.inode
  resolved : ∀ c inum, Component c → d.resolve c = some inum →
    ∃ de ∈ d.entries, de.listed = c ∧ de.inode = inum

variable {d : Node} {de : Entry} {c name : Path}

theorem Component.elem (h : Component c) : skipelem c = some (c.take (dirSiz - 1),[]) := by
  have hne : ∀ x ∈ c, x ≠ slash := fun x hx hs => h.no_slash (hs ▸ hx)
  have hdrop : c.dropWhile (· = slash) = c := by
    cases c with
    | nil => rfl
    | cons x c => exact dropWhile_cons_of_neg (by simpa using hne x (mem_cons_self ..))
  have htake : c.takeWhile (· ≠ slash) = c := takeWhile_eq_self_iff.mpr (by simpa using hne)
  have hrest : c.dropWhile (· ≠ slash) = [] := dropWhile_eq_nil_iff.mpr (by simpa using hne)
  rw [skipelem,hdrop,if_neg h.ne_nil,htake,hrest]
  rfl

theorem namecmpN_iff (hbytes : 0 ∉ de.bytes) (hname : 0 ∉ name) :
    namecmpN de name de.nameLen = 0 ↔ de.bytes = name := by
  have hlen : de.bytes.length = de.nameLen := by rw [Entry.bytes,length_map,length_range]
  have hget : ∀ i (hi : i < de.nameLen), de.bytes.getD i 0 = de.name i := by
    intro i hi
    simp [Entry.bytes,List.getD,hi]
  have hzero : ∀ l : Path, 0 ∉ l → ∀ i, l.getD i 0 = 0 ↔ l.length ≤ i := by
    intro l hl i
    rcases lt_or_ge i l.length with hi | hi
    · rw [getD_eq_getElem _ _ hi]
      exact iff_of_false (fun h => hl (h ▸ getElem_mem hi)) (not_le.mpr hi)
    · exact iff_of_true (getD_eq_default _ _ hi) hi
  unfold namecmpN
  constructor
  · intro h
    split at h
    · rename_i heq
      split at h
      · cases h
      rename_i hend
      have hle := (hzero name hname _).mp (not_not.mp hend)
      have hge : de.nameLen ≤ name.length := by
        by_contra hlt
        have := heq name.length (not_le.mp hlt)
        rw [(hzero name hname _).mpr le_rfl,← hget _ (not_le.mp hlt),hzero _ hbytes,hlen] at this
        omega
      refine ext_getElem (by omega) fun i hi hi' => ?_
      have := heq i (by omega)
      rwa [← hget i (by omega),getD_eq_getElem _ _ hi,getD_eq_getElem _ _ hi'] at this
    · cases h
  · rintro rfl
    rw [if_pos fun i hi => (hget i hi).symm,if_neg]
    exact not_not.mpr ((hzero _ hbytes _).mpr hlen.le)

theorem feed_lookup (name : Path) (des : List Entry) : feed (lookupCb name) des 0 =
      match des.find? (fun de => namecmpN de name de.nameLen = 0) with
      | none => (0,none)
      | some de => (de.inode,some 1) := by
  induction des with
  | nil => rfl
  | cons de des ih =>
    rw [feed,lookupCb]
    by_cases hde : namecmpN de name de.nameLen = 0
    · rw [if_pos hde,find?_cons_of_pos (by simpa using hde)]
      rfl
    · rw [if_neg hde,find?_cons_of_neg (by simpa using hde)]
      exact ih

theorem Node.Valid.lookup (h : d.Valid) (hname : 0 ∉ name) (inum : Nat) :
    d.ext2Lookup name = some inum ↔
      ∃ de ∈ d.entries, de.bytes = name ∧ de.inode = inum ∧ d.supports inum := by
  obtain ⟨e,he,hfeed⟩ := iterate_feed d.sb d.dir d.f (lookupCb name) 0
  have hmatch : ∀ de ∈ d.entries, (namecmpN de name de.nameLen = 0 ↔ de.bytes = name) :=
    fun de hde => namecmpN_iff (h.names de hde).no_zero hname
  simp only [ext2Lookup,hfeed,feed_lookup]
  change _ ↔ ∃ de ∈ Ext2Dir.entries d.sb d.dir d.f, _
  rcases hfind : (Ext2Dir.entries d.sb d.dir d.f).find? (fun de => namecmpN de name de.nameLen = 0)
    with _ | de
  · dsimp only
    rw [if_pos (.inl (by rcases he with rfl | rfl <;> decide))]
    refine iff_of_false (fun h => by cases h) ?_
    rintro ⟨de,hde,hbytes,-⟩
    exact absurd (find?_eq_none.mp hfind de hde) (by simpa using (hmatch de hde).mpr hbytes)
  have hmem := mem_of_find?_eq_some hfind
  have hbytes := (hmatch de hmem).mp (by simpa using find?_some hfind)
  dsimp only
  rw [if_neg (by simpa using h.used de hmem)]
  constructor
  · intro hsome
    split at hsome
    · rename_i hsup
      cases hsome
      exact ⟨de,hmem,hbytes,rfl,hsup⟩
    · cases hsome
  · rintro ⟨de',hde',hbytes',rfl,hsup⟩
    obtain rfl := h.unique de hmem de' hde' (hbytes.trans hbytes'.symm)
    rw [if_pos hsup]

theorem Entry.listed_of_short (h : de.nameLen < dirSiz - 1) : de.listed = de.bytes :=
  take_of_length_le (by
    rw [Entry.bytes,length_map,length_range]
    exact h.le)

theorem take_eq_short {x : Path} (hx : x.length < dirSiz - 1) (h : c.take (dirSiz - 1) = x) :
    c = x := by
  have hlen := congrArg List.length h
  rw [length_take] at hlen
  rw [← h,take_of_length_le (by omega)]

theorem Node.resolve_eq (h : Component c) (d : Node) : d.resolve c =
      if c.take (dirSiz - 1) = [dot] then some d.self
      else if c.take (dirSiz - 1) = [dot,dot] then some d.parent
      else d.ext2Lookup (c.take (dirSiz - 1)) := by
  rw [resolve,h.elem]
  rfl

theorem listing_agrees_with_lookup (d : Node) (hvalid : d.Valid) :
    d.Agree ↔ (∀ de ∈ d.entries, d.supports de.inode → de.nameLen < dirSiz - 1) ∧
      ∀ de ∈ d.entries, de.bytes = [dot,dot] → de.inode = d.parent := by
  have hshort : ∀ x : Path, x.length ≤ 2 → x.length < dirSiz - 1 := fun x hx =>
    lt_of_le_of_lt hx (by decide)
  constructor
  · intro h
    refine ⟨fun de hde hsup => ?_,fun de hde hbytes => ?_⟩
    · by_contra hlong
      have hlen : de.listed.length = dirSiz - 1 := by
        rw [Entry.listed,length_take,Entry.bytes,length_map,length_range]
        omega
      have hnames := hvalid.names de hde
      have hlisted : Component de.listed :=
        ⟨ne_nil_of_length_pos (hlen ▸ by decide),fun hs => hnames.no_slash (mem_of_mem_take hs),
          fun hz => hnames.no_zero (mem_of_mem_take hz)⟩
      have hmore : Component (de.listed ++ [dot]) := by
        refine ⟨append_ne_nil_of_right_ne_nil _ (cons_ne_nil _ _),?_,?_⟩ <;>
          rw [mem_append,mem_singleton]
        · exact fun hs => hs.elim hlisted.no_slash (by decide)
        · exact fun hz => hz.elim hlisted.no_zero (by decide)
      have hres : d.resolve (de.listed ++ [dot]) = d.resolve de.listed := by
        rw [Node.resolve_eq hmore,Node.resolve_eq hlisted,take_left' hlen,take_of_length_le hlen.le]
      obtain ⟨de',-,heq,-⟩ := h.resolved _ _ hmore (hres.trans (h.listed de hde hsup))
      have hle : de'.listed.length ≤ dirSiz - 1 := length_take_le _ _
      rw [heq,length_append,hlen,length_singleton] at hle
      omega
    · have hdots : Component [dot,dot] := ⟨by decide,by decide,by decide⟩
      have hparent : d.resolve [dot,dot] = some d.parent := by
        rw [Node.resolve_eq hdots]
        rfl
      obtain ⟨de',hde',heq,hinode⟩ := h.resolved _ _ hdots hparent
      have hbytes' : de'.bytes = [dot,dot] := take_eq_short (hshort _ (by decide)) heq
      rw [hvalid.unique de hde de' hde' (hbytes.trans hbytes'.symm),hinode]
  rintro ⟨hlen,hup⟩
  refine ⟨fun de hde hsup => ?_,fun c inum hc hres => ?_⟩
  · rw [Entry.listed_of_short (hlen de hde hsup),Node.resolve_eq (hvalid.names de hde)]
    have htake : de.bytes.take (dirSiz - 1) = de.bytes := Entry.listed_of_short (hlen de hde hsup)
    rw [htake]
    split
    · rename_i hdot
      obtain ⟨own,hown,hbytes,hself⟩ := hvalid.own
      rw [hvalid.unique de hde own hown (hdot.trans hbytes.symm),hself]
    split
    · rename_i hdots
      rw [hup de hde hdots]
    · exact (hvalid.lookup (hvalid.names de hde).no_zero _).mpr ⟨de,hde,rfl,rfl,hsup⟩
  rw [Node.resolve_eq hc] at hres
  split at hres
  · rename_i hdot
    obtain ⟨own,hown,hbytes,hself⟩ := hvalid.own
    refine ⟨own,hown,?_,hself.trans (Option.some.inj hres)⟩
    rw [Entry.listed,hbytes,take_eq_short (hshort _ (by decide)) hdot]
    rfl
  split at hres
  · rename_i hdots
    obtain ⟨de,hde,hbytes⟩ := hvalid.up
    refine ⟨de,hde,?_,(hup de hde hbytes).trans (Option.some.inj hres)⟩
    rw [Entry.listed,hbytes,take_eq_short (hshort _ (by decide)) hdots]
    rfl
  obtain ⟨de,hde,hbytes,rfl,hsup⟩ :=
    (hvalid.lookup (fun h => hc.no_zero (mem_of_mem_take h)) inum).mp hres
  have hlt := hlen de hde hsup
  refine ⟨de,hde,?_,rfl⟩
  rw [Entry.listed_of_short hlt]
  refine (take_eq_short ?_ hbytes.symm).symm
  rw [Entry.bytes,length_map,length_range]
  exact hlt

def oneName (len : UInt8) : Image where
  capacity := 64
  byte a :=
    if a = 1080 then 0x53 else if a = 1081 then 0xEF
    else if a = 3072 ∨ a = 3084 then 2 else if a = 3076 ∨ a = 3088 then 12
    else if a = 3078 then 1 else if a = 3080 then dot
    else if a = 3090 then 2 else if a = 3092 ∨ a = 3093 then dot
    else if a = 3096 then 11 else if a = 3100 then 0xE8 else if a = 3101 then 3
    else if a = 3102 then len
    else if 3104 ≤ a then 0x61 else 0

def shortName : Node :=
  ⟨⟨oneName 3,1024,by decide +kernel⟩,⟨1024,fun _ => 3⟩,quiet,2,2,fun _ => true⟩

def longName : Node :=
  ⟨⟨oneName 28,1024,by decide +kernel⟩,⟨1024,fun _ => 3⟩,quiet,2,2,fun _ => true⟩

theorem shortName_valid : shortName.Valid :=
  ⟨by decide +kernel,by decide +kernel,by decide +kernel,by decide +kernel,by decide +kernel⟩

theorem listing_agrees_with_lookup_short : shortName.entries.length = 3 ∧ shortName.Agree :=
  ⟨by decide +kernel,(listing_agrees_with_lookup shortName shortName_valid).mpr
    ⟨by decide +kernel,by decide +kernel⟩⟩

theorem long_name_not_resolved : longName.Valid ∧ ¬ longName.Agree := by
  refine ⟨⟨by decide +kernel,by decide +kernel,by decide +kernel,by decide +kernel,
    by decide +kernel⟩,fun h => ?_⟩
  have hlost : ∃ de ∈ longName.entries, longName.supports de.inode = true ∧
      longName.resolve de.listed ≠ some de.inode := by decide +kernel
  obtain ⟨de,hde,hsup,hres⟩ := hlost
  exact hres (h.listed de hde hsup)

end TinyOs.Ext2Dir
