import OsKernel.Fat32.DirEntries

/-! # The layout of a directory

Up to `hint` a directory file is a run of items: an entry marked unused
(`0xE5`) that `delete_dir_ent` left, or a name, which is its long entries, last
part first, and its short entry.  From `hint` on the file is free: its first
entry, if there is one, is `last_and_unused`, and nothing reads past it.
`DirWalker` over `DirIter(None, Used, FORWARD)` yields the names of such a file
in order, each with its short entry.
-/

namespace OsKernel.Fat32

open Inode Fs

inductive DirItem
  | deleted (ent : FATDirEnt)
  | named (longs : List FATDirEnt) (short : FATDirEnt)
deriving DecidableEq

namespace DirItem

/-- The entries of the item, in file order. -/
def ents : DirItem → List FATDirEnt
  | deleted ent => [ent]
  | named longs short => longs ++ [short]

/-- The entries of a run of items. -/
def entsOf (items : List DirItem) : List FATDirEnt :=
  items.flatMap ents

/-- The pair `DirWalker::next` yields for the item: the long entries' parts
    joined, first part first, or the short name when they give none. -/
def pair : DirItem → Option (List Char × FATDirEnt)
  | deleted _ => none
  | named longs short =>
      let name := longs.reverse.flatMap FATDirEnt.getName
      some (if name.isEmpty then short.getName else name, short)

/-- Long entries in file order as `DirWalker` reassembles them: entry `i` of
    `n` is a used long entry of order `n - i`, and only the first is marked
    last. -/
def LongChain (longs : List FATDirEnt) : Prop :=
  ∀ i (hi : i < longs.length), longs[i].isLong = true ∧ longs[i].unused = false ∧
    longs[i].ord = longs.length - i ∧ longs[i].isLastLongDirEnt = (i == 0)

def Valid : DirItem → Prop
  | deleted ent => ent.unusedNotLast = true
  | named longs short => LongChain longs ∧ short.isShort = true ∧ short.unused = false

@[simp] theorem entsOf_nil : entsOf [] = [] := rfl

@[simp] theorem entsOf_cons (item : DirItem) (items : List DirItem) :
    entsOf (item :: items) = item.ents ++ entsOf items :=
  List.flatMap_cons

@[simp] theorem entsOf_append (items items' : List DirItem) :
    entsOf (items ++ items') = entsOf items ++ entsOf items' :=
  List.flatMap_append

theorem length_ents_pos (item : DirItem) : 0 < item.ents.length := by
  cases item <;> simp [ents]

theorem length_filterMap_pair_le (items : List DirItem) :
    (items.filterMap pair).length ≤ (entsOf items).length := by
  induction items with
  | nil => rfl
  | cons item items ih =>
      have hpos := length_ents_pos item
      rw [entsOf_cons, List.length_append]
      cases item with
      | deleted ent => simp only [List.filterMap_cons, pair]; omega
      | named longs short => simp only [List.filterMap_cons, pair, List.length_cons]; omega

/-- A chain read last part first is a list of long entries read first part
    first: entry `i` of order `i + 1`, and only the last marked last. -/
theorem longChain_reverse_iff {ls : List FATDirEnt} :
    LongChain ls.reverse ↔ ∀ i (hi : i < ls.length), ls[i].isLong = true ∧ ls[i].unused = false ∧
      ls[i].ord = i + 1 ∧ ls[i].isLastLongDirEnt = (i + 1 == ls.length) := by
  constructor
  · intro h i hi
    obtain ⟨h₁, h₂, h₃, h₄⟩ := h (ls.length - 1 - i) (by rw [List.length_reverse]; omega)
    have hidx : ls.length - 1 - (ls.length - 1 - i) = i := by omega
    simp only [List.getElem_reverse, hidx, List.length_reverse] at h₁ h₂ h₃ h₄
    refine ⟨h₁, h₂, by omega, ?_⟩
    rw [h₄, Bool.eq_iff_iff, beq_iff_eq, beq_iff_eq]
    omega
  · intro h i hi
    rw [List.length_reverse] at hi
    obtain ⟨h₁, h₂, h₃, h₄⟩ := h (ls.length - 1 - i) (by omega)
    rw [List.getElem_reverse, List.length_reverse]
    refine ⟨h₁, h₂, by omega, ?_⟩
    rw [h₄, Bool.eq_iff_iff, beq_iff_eq, beq_iff_eq]
    omega

theorem LongChain.tail {l : FATDirEnt} {chain : List FATDirEnt} (h : LongChain (l :: chain)) :
    ∀ i (hi : i < chain.length), chain[i].isLong = true ∧ chain[i].unused = false ∧
      chain[i].isLastLongDirEnt = false ∧ chain[i].ord = chain.length - i := by
  intro i hi
  obtain ⟨hlong, hused, hord, hlast⟩ := h (i + 1) (by simp [hi])
  simp only [List.getElem_cons_succ, List.length_cons] at hlong hused hord hlast
  exact ⟨hlong, hused, by simpa using hlast, by omega⟩

end DirItem

/-- A directory file laid out as `items` up to `hint`, `tail` from there on,
    in whole clusters and one at least. -/
structure Layout (efs : Efs) (st : FileState) (items : List DirItem) (tail : List FATDirEnt) : Prop where
  valid : ∀ item ∈ items, item.Valid
  represents : Represents efs st (entBytes (DirItem.entsOf items ++ tail))
  hint_eq : st.content.hint = stepSize * (DirItem.entsOf items).length
  tail_free : ∀ e ∈ tail.head?, e.lastAndUnused = true
  size_dvd : efs.clusSize ∣ st.content.size
  size_pos : 0 < st.content.size

theorem Layout.size_lt {efs : Efs} {st : FileState} {items : List DirItem} {tail : List FATDirEnt}
    (h : Layout efs st items tail) : stepSize * (DirItem.entsOf items ++ tail).length < 2 ^ 32 := by
  rw [← length_entBytes]
  exact h.represents.size_lt

/-! ## Iterators over entries in pieces -/

namespace DirIter

section Pieces

variable {pre dels post : List FATDirEnt} {e : FATDirEnt}

theorem getElem_pieces (h : pre.length + dels.length < (pre ++ dels ++ e :: post).length) :
    (pre ++ dels ++ e :: post)[pre.length + dels.length] = e := by
  simp

theorem getElem_pieces_dels {j : Nat} (hj : j < (pre ++ dels ++ e :: post).length) (h₁ : pre.length ≤ j)
    (h₂ : j < pre.length + dels.length) :
    (pre ++ dels ++ e :: post)[j] ∈ dels := by
  rw [List.getElem_append_left (by simp; omega), List.getElem_append_right h₁]
  exact List.getElem_mem _

variable (hsize : stepSize * (pre ++ dels ++ e :: post).length < 2 ^ 32)
include hsize

/-- Forward in `Used` mode over entries marked unused, to a used one. -/
theorem nextOn_used_pieces (hdels : ∀ d ∈ dels, d.unusedNotLast = true) (he : e.unused = false) :
    (fwdAt .used pre.length).nextOn (entBytes (pre ++ dels ++ e :: post)) =
      some (fwdAt .used (pre.length + dels.length + 1), some e) := by
  have h := nextOn_fwdAt_used hsize (by simp) (fun j hj h₁ h₂ => hdels _ (getElem_pieces_dels hj h₁ h₂))
    (by rw [getElem_pieces (by simp)]; exact he)
  simpa only [getElem_pieces (by simp)] using h

end Pieces

/-- Forward in `Used` mode over entries marked unused, to the free part. -/
theorem nextOn_used_end {pre dels tail : List FATDirEnt} (hsize : stepSize * (pre ++ dels ++ tail).length < 2 ^ 32)
    (hdels : ∀ d ∈ dels, d.unusedNotLast = true) (htail : ∀ e ∈ tail.head?, e.lastAndUnused = true) :
    (fwdAt .used pre.length).nextOn (entBytes (pre ++ dels ++ tail)) =
      some (fwdAt .used (pre.length + dels.length), none) := by
  refine nextOn_fwdAt_used_end hsize (by simp) (fun j hj h₁ h₂ => hdels _ ?_) fun h => ?_
  · rw [List.getElem_append_left (by simp; omega), List.getElem_append_right h₁]
    exact List.getElem_mem _
  · rw [List.getElem_append_right (by simp)]
    cases tail with
    | nil => simp at h
    | cons t tail => simpa using htail t rfl

end DirIter

/-! ## `DirWalker` over a laid-out directory -/

open DirIter DirItem

theorem walkerNextOn_fwdAt_eq (es : List FATDirEnt) (mode : DirIterMode) (p : Nat) :
    walkerNextOn (entBytes es) (fwdAt mode p) =
      walkLoopOn (entBytes es) (es.length + (p - 1) + 2) [] usizeMax (fwdAt mode p) := by
  have hoff : (fwdAt mode p).offset.getD 0 = stepSize * (p - 1) := by
    rcases p with _ | p <;> rfl
  rw [walkerNextOn, hoff, length_entBytes, ← Nat.mul_add, Nat.mul_div_cancel_left _ (by decide)]

theorem sub_one_ord {n : Nat} (h : n + 1 < 2 ^ 64) : Word.sub 64 (n + 1) 1 = n :=
  Word.sub_of_le (by omega) h

/-- The rest of a name after its last long entry: each long entry has the
    order the walker expects next and prepends its part, and the short entry
    ends the name. -/
theorem walkLoopOn_chain (short : FATDirEnt) (post : List FATDirEnt) (hshort : short.isShort = true)
    (hused : short.unused = false) :
    ∀ (chain pre : List FATDirEnt) (acc : List Char) (fuel : Nat),
      stepSize * (pre ++ chain ++ short :: post).length < 2 ^ 32 →
      (∀ i (hi : i < chain.length), chain[i].isLong = true ∧ chain[i].unused = false ∧
        chain[i].isLastLongDirEnt = false ∧ chain[i].ord = chain.length - i) →
      walkLoopOn (entBytes (pre ++ chain ++ short :: post)) (fuel + chain.length + 1) acc chain.length
          (fwdAt .used pre.length) =
        some (fwdAt .used (pre.length + chain.length + 1),
          some (let name := chain.reverse.flatMap FATDirEnt.getName ++ acc
            if name.isEmpty then short.getName else name, short))
  | [], pre, acc, fuel, hsize, _ => by
      have hlong : short.isLong = false := by simpa [FATDirEnt.isShort] using hshort
      rw [walkLoopOn, nextOn_used_pieces hsize (by simp) hused]
      simp [hlong, hshort]
  | c :: chain, pre, acc, fuel, hsize, hchain => by
      obtain ⟨hlong, hcused, hlast, hord⟩ := hchain 0 (by simp)
      simp only [List.getElem_cons_zero, List.length_cons, Nat.sub_zero] at hlong hcused hlast hord
      have hsize' : stepSize * ((pre ++ [c]) ++ chain ++ short :: post).length < 2 ^ 32 := by
        simpa using hsize
      have hrest := walkLoopOn_chain short post hshort hused chain (pre ++ [c]) (c.getName ++ acc) fuel hsize'
        fun i hi => by
          obtain ⟨h₁, h₂, h₃, h₄⟩ := hchain (i + 1) (by simp [hi])
          simp only [List.getElem_cons_succ, List.length_cons] at h₁ h₂ h₃ h₄
          exact ⟨h₁, h₂, h₃, by omega⟩
      have hpieces : pre ++ c :: chain ++ short :: post = pre ++ [] ++ c :: (chain ++ short :: post) := by
        simp
      have hord' : Word.sub 64 (chain.length + 1) 1 = chain.length := sub_one_ord (by
        have : stepSize * (chain.length + 1) < 2 ^ 32 := lt_of_le_of_lt
          (Nat.mul_le_mul_left _ (by simp; omega)) hsize
        unfold stepSize at this
        omega)
      rw [List.length_cons, show fuel + (chain.length + 1) + 1 = fuel + chain.length + 1 + 1 by omega,
        walkLoopOn, hpieces, nextOn_used_pieces (by simpa using hsize) (by simp) hcused]
      simp only [Option.bind_eq_bind, Option.bind_some, hlong, hlast, hord, if_true, Bool.false_eq_true,
        if_false, List.length_nil, Nat.add_zero]
      rw [hord', ← hpieces, show pre ++ c :: chain ++ short :: post = pre ++ [c] ++ chain ++ short :: post by simp]
      have hpos : (pre ++ [c]).length + chain.length + 1 = pre.length + (chain.length + 1) + 1 := by
        simp only [List.length_append, List.length_singleton]
        omega
      rw [show pre.length + 1 = (pre ++ [c]).length by simp, hrest, hpos]
      simp [List.reverse_cons, List.flatMap_append]

/-- One call of `DirWalker::next`: past the entries marked unused, the next
    name. -/
theorem walkerNextOn_item {pre dels longs post : List FATDirEnt} {short : FATDirEnt}
    (hsize : stepSize * (pre ++ dels ++ (longs ++ [short]) ++ post).length < 2 ^ 32)
    (hdels : ∀ d ∈ dels, d.unusedNotLast = true) (hvalid : (named longs short).Valid) :
    walkerNextOn (entBytes (pre ++ dels ++ (longs ++ [short]) ++ post)) (fwdAt .used pre.length) =
      some (fwdAt .used (pre.length + dels.length + longs.length + 1), (named longs short).pair) := by
  obtain ⟨hchain, hshort, hused⟩ := hvalid
  have hlong : short.isLong = false := by simpa [FATDirEnt.isShort] using hshort
  rw [walkerNextOn_fwdAt_eq, show ∀ n, n + 2 = n + 1 + 1 from fun _ => rfl, walkLoopOn]
  cases longs with
  | nil =>
      have hpieces : pre ++ dels ++ ([] ++ [short]) ++ post = pre ++ dels ++ short :: post := by simp
      rw [hpieces, nextOn_used_pieces (hpieces ▸ hsize) hdels hused]
      simp [hlong, hshort, pair]
  | cons l chain =>
      obtain ⟨hl, hlused, hlord, hllast⟩ := hchain 0 (by simp)
      simp only [List.getElem_cons_zero, List.length_cons, Nat.sub_zero, beq_self_eq_true] at hl hlused hlord hllast
      have hpieces : pre ++ dels ++ (l :: chain ++ [short]) ++ post = pre ++ dels ++ l :: (chain ++ short :: post) := by
        simp
      have hpieces' : pre ++ dels ++ (l :: chain ++ [short]) ++ post = (pre ++ dels ++ [l]) ++ chain ++ short :: post := by
        simp
      have hsize' : stepSize * ((pre ++ dels ++ [l]) ++ chain ++ short :: post).length < 2 ^ 32 := hpieces' ▸ hsize
      have hord : Word.sub 64 (chain.length + 1) 1 = chain.length := sub_one_ord (by
        have : stepSize * (chain.length + 1) < 2 ^ 32 := lt_of_le_of_lt
          (Nat.mul_le_mul_left _ (by simp; omega)) hsize
        unfold stepSize at this
        omega)
      have hfuel : (pre ++ dels ++ (l :: chain ++ [short]) ++ post).length + (pre.length - 1) + 1 =
          ((pre ++ dels ++ (l :: chain ++ [short]) ++ post).length + (pre.length - 1) - chain.length) +
            chain.length + 1 := by
        simp only [List.length_append, List.length_cons]
        omega
      rw [hpieces, nextOn_used_pieces (hpieces ▸ hsize) hdels hlused]
      simp only [Option.bind_eq_bind, Option.bind_some, hl, hllast, if_true, List.append_nil]
      rw [hlord, hord, ← hpieces, hfuel, hpieces', show pre.length + dels.length + 1 = (pre ++ dels ++ [l]).length by simp; omega,
        walkLoopOn_chain short post hshort hused chain _ _ _ hsize' (LongChain.tail hchain)]
      have hpos : (pre ++ dels ++ [l]).length + chain.length + 1 = pre.length + dels.length + (chain.length + 1) + 1 := by
        simp only [List.length_append, List.length_singleton]
        omega
      rw [hpos]
      simp [pair, List.reverse_cons, List.flatMap_append]

/-- A walk to the end over items: each call past the entries marked unused
    yields the next name, and the last one meets the free part. -/
theorem walkAllLoopOn_items (tail : List FATDirEnt) (htail : ∀ e ∈ tail.head?, e.lastAndUnused = true) :
    ∀ (items : List DirItem) (pre dels : List FATDirEnt) (fuel : Nat),
      stepSize * (pre ++ dels ++ entsOf items ++ tail).length < 2 ^ 32 →
      (∀ d ∈ dels, d.unusedNotLast = true) → (∀ item ∈ items, item.Valid) →
      walkAllLoopOn (entBytes (pre ++ dels ++ entsOf items ++ tail)) (fuel + (items.filterMap pair).length + 1)
          (fwdAt .used pre.length) = some (items.filterMap pair)
  | [], pre, dels, fuel, hsize, hdels, _ => by
      have hend := nextOn_used_end (by simpa using hsize) hdels htail
      rw [entsOf_nil, List.append_nil] at hsize ⊢
      rw [walkAllLoopOn, walkerNextOn_fwdAt_eq, show ∀ n, n + 2 = n + 1 + 1 from fun _ => rfl, walkLoopOn, hend]
      rfl
  | deleted d :: items, pre, dels, fuel, hsize, hdels, hvalid => by
      have hpieces : pre ++ dels ++ entsOf (deleted d :: items) ++ tail = pre ++ (dels ++ [d]) ++ entsOf items ++ tail := by
        simp [ents]
      have hd : d.unusedNotLast = true := hvalid _ List.mem_cons_self
      rw [hpieces]
      exact walkAllLoopOn_items tail htail items pre (dels ++ [d]) fuel (hpieces ▸ hsize)
        (fun x hx => by
          rcases List.mem_append.mp hx with hx | hx
          · exact hdels x hx
          · rw [List.mem_singleton.mp hx]; exact hd)
        fun item hitem => hvalid item (List.mem_cons_of_mem _ hitem)
  | named longs short :: items, pre, dels, fuel, hsize, hdels, hvalid => by
      have hpieces : pre ++ dels ++ entsOf (named longs short :: items) ++ tail =
          pre ++ dels ++ (longs ++ [short]) ++ (entsOf items ++ tail) := by
        simp [ents]
      have hpieces' : pre ++ dels ++ entsOf (named longs short :: items) ++ tail =
          (pre ++ dels ++ (longs ++ [short])) ++ [] ++ entsOf items ++ tail := by
        simp [ents]
      have hnext := walkerNextOn_item (hpieces ▸ hsize) hdels (hvalid _ List.mem_cons_self)
      have hrest := walkAllLoopOn_items tail htail items (pre ++ dels ++ (longs ++ [short])) [] fuel
        (hpieces' ▸ hsize) (by simp) fun item hitem => hvalid item (List.mem_cons_of_mem _ hitem)
      have hpos : pre.length + dels.length + longs.length + 1 = (pre ++ dels ++ (longs ++ [short])).length := by
        simp only [List.length_append, List.length_singleton]
        omega
      simp only [List.filterMap_cons, pair, List.length_cons]
      rw [show fuel + ((items.filterMap pair).length + 1) + 1 = fuel + (items.filterMap pair).length + 1 + 1 by omega,
        walkAllLoopOn, hpieces, hnext, hpos, ← hpieces, hpieces']
      simp only [pair, Option.bind_eq_bind, Option.bind_some]
      rw [hrest]
      rfl

/-- `DirWalker` over a laid-out directory yields its names in order. -/
theorem walkAllOn_layout {items : List DirItem} {tail : List FATDirEnt}
    (hsize : stepSize * (entsOf items ++ tail).length < 2 ^ 32) (hvalid : ∀ item ∈ items, item.Valid)
    (htail : ∀ e ∈ tail.head?, e.lastAndUnused = true) :
    walkAllOn (entBytes (entsOf items ++ tail)) = some (items.filterMap pair) := by
  have hle := length_filterMap_pair_le items
  have hlen : (entBytes (entsOf items ++ tail)).length / stepSize + 1 =
      ((entsOf items ++ tail).length - (items.filterMap pair).length) + (items.filterMap pair).length + 1 := by
    rw [length_entBytes, Nat.mul_div_cancel_left _ (by decide), List.length_append]
    omega
  have hrun := walkAllLoopOn_items tail htail items [] [] ((entsOf items ++ tail).length - (items.filterMap pair).length)
    (by simpa using hsize) (by simp) hvalid
  simp only [List.nil_append] at hrun
  rw [walkAllOn, hlen]
  exact hrun

theorem walkAll_of_layout {efs : Efs} (h512 : efs.bytsPerSec = bufferSize) {st : FileState}
    {items : List DirItem} {tail : List FATDirEnt} (hl : Layout efs st items tail) :
    walkAll efs st = some (items.filterMap pair) := by
  rw [walkAll_refines h512 hl.represents]
  exact walkAllOn_layout hl.size_lt hl.valid hl.tail_free

end OsKernel.Fat32
