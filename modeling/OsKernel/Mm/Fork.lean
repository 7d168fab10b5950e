import OsKernel.Mm.MemorySet

/-! # The child's address space built by `from_existed_user`

`fork` gives the child a fresh address space: the two trampolines, then a fresh
frame for every page of the parent's areas, `heap_area` and `mmap_area`, mapped
again and filled with a copy of the parent's page.  `LeafInv` is what every step
of that construction keeps: every valid leaf of the child has a frame in use,
no two leaves share a frame, and the frames in use before the copy keep their
bytes.  `Copied` is what it establishes for one page, and `Preserves` says that
a later step leaves such a page alone.
-/

namespace OsKernel.Mm

open StateLoop PageTable

namespace Fork

section Invariant

variable (p₀ : Phys)

structure LeafInv (pt : PageTable) (p : Phys) : Prop where
  keeps : p₀.Keeps p
  inUse : ∀ v bits, pt.validEntry v = some bits → p.allocator.InUse (ptePpn bits)
  inj : ∀ v w bits bits', leafIndex v ≠ leafIndex w → pt.validEntry v = some bits →
    pt.validEntry w = some bits' → ptePpn bits ≠ ptePpn bits'

/-- Page `v` is mapped with flags `e` to a frame that was free when the copy
    began and now holds the bytes that frame `src` held then. -/
def Copied (pt : PageTable) (p : Phys) (v e src : Nat) : Prop :=
  ∃ c, c < 2 ^ 44 ∧ pt.validEntry v = some (pteNew c e) ∧ ¬ p₀.allocator.InUse c ∧
    p.mem c = p₀.mem src

/-- A heap or mmap page of the child: also recorded in the child's map with the
    frame it is mapped to. -/
def OwnedCopy (pt : PageTable) (owned : List (Nat × FrameTracker)) (p : Phys) (v e src : Nat) :
    Prop :=
  ∃ c, SortedMap.get? owned v = some ⟨c, true⟩ ∧ c < 2 ^ 44 ∧
    pt.validEntry v = some (pteNew c e) ∧ ¬ p₀.allocator.InUse c ∧ p.mem c = p₀.mem src

/-- Page `k`, unmapped in `pt`, is mapped in `q` with flags `e` to a frame that
    was free when the copy began. -/
def Fresh (pt q : PageTable) (e k : Nat) : Prop :=
  pt.validEntry k = none ∧ ∃ c, c < 2 ^ 44 ∧ q.validEntry k = some (pteNew c e) ∧
    ¬ p₀.allocator.InUse c

end Invariant

/-- Every valid leaf of `pt` stays, with the bytes of its frame. -/
def Preserves (pt pt' : PageTable) (p p' : Phys) : Prop :=
  ∀ v bits, pt.validEntry v = some bits →
    pt'.validEntry v = some bits ∧ p'.mem (ptePpn bits) = p.mem (ptePpn bits)

theorem Preserves.refl (pt : PageTable) (p : Phys) : Preserves pt pt p p :=
  fun _ _ hv => ⟨hv, rfl⟩

theorem Preserves.trans {pt pt' pt'' : PageTable} {p p' p'' : Phys}
    (h₁ : Preserves pt pt' p p') (h₂ : Preserves pt' pt'' p' p'') : Preserves pt pt'' p p'' := by
  intro v bits hv
  obtain ⟨hv', hmem'⟩ := h₁ v bits hv
  obtain ⟨hv'', hmem''⟩ := h₂ v bits hv'
  exact ⟨hv'', hmem''.trans hmem'⟩

theorem Preserves.validEntry_eq_none {pt pt' : PageTable} {p p' : Phys} {v : Nat}
    (hpres : Preserves pt pt' p p') (hv : pt'.validEntry v = none) : pt.validEntry v = none := by
  cases hpv : pt.validEntry v with
  | none => rfl
  | some bits =>
      rw [(hpres v bits hpv).1] at hv
      cases hv

/-- What the map loop of a fresh copy of `area` keeps, from `pt` and `p` on: the
    keys of `data_frames` are the pages mapped so far, each fresh, at pairwise
    different leaves. -/
structure MapLoopInv (p₀ : Phys) (pt : PageTable) (p : Phys) (area a : MapArea) (q : PageTable)
    (s : Phys) : Prop where
  leafInv : LeafInv p₀ q s
  pres : Preserves pt q p s
  framed : a.mapType = .framed
  perm : a.mapPerm = area.mapPerm
  fresh : ∀ k f, SortedMap.get? a.dataFrames k = some f → Fresh p₀ pt q (area.mapPerm ||| pteV) k
  apart : ∀ k k' f f', SortedMap.get? a.dataFrames k = some f →
    SortedMap.get? a.dataFrames k' = some f' → k ≠ k' → leafIndex k ≠ leafIndex k'

variable {p₀ : Phys}

theorem Copied.preserve {pt pt' : PageTable} {p p' : Phys} {v e src : Nat} (he : e < 2 ^ 10)
    (hcopied : Copied p₀ pt p v e src) (hpres : Preserves pt pt' p p') :
    Copied p₀ pt' p' v e src := by
  obtain ⟨c, hc, hv, hfresh, hmem⟩ := hcopied
  obtain ⟨hv', hmem'⟩ := hpres v _ hv
  rw [ptePpn_pteNew hc he] at hmem'
  exact ⟨c, hc, hv', hfresh, hmem'.trans hmem⟩

theorem OwnedCopy.preserve {pt pt' : PageTable} {owned owned' : List (Nat × FrameTracker)}
    {p p' : Phys} {v e src : Nat} (he : e < 2 ^ 10) (hcopied : OwnedCopy p₀ pt owned p v e src)
    (hpres : Preserves pt pt' p p') (hget : SortedMap.get? owned' v = SortedMap.get? owned v) :
    OwnedCopy p₀ pt' owned' p' v e src := by
  obtain ⟨c, hown, hc, hv, hfresh, hmem⟩ := hcopied
  obtain ⟨hv', hmem'⟩ := hpres v _ hv
  rw [ptePpn_pteNew hc he] at hmem'
  exact ⟨c, hget.trans hown, hc, hv', hfresh, hmem'.trans hmem⟩

theorem LeafInv.of_keeps {pt : PageTable} {p p' : Phys} (hinv : LeafInv p₀ pt p)
    (hkeep : p.Keeps p') : LeafInv p₀ pt p' :=
  ⟨hinv.keeps.trans hkeep, fun v bits hv => hkeep.inUse _ (hinv.inUse v bits hv), hinv.inj⟩

theorem LeafInv.lt_two_pow {pt : PageTable} {p : Phys} {c : Nat} (hinv : LeafInv p₀ pt p)
    (hlast : p₀.allocator.last ≤ 2 ^ 44) (hc : p.allocator.InUse c) : c < 2 ^ 44 := by
  have hlt := StackFrameAllocator.InUse.lt_last hinv.keeps.valid hc
  rw [hinv.keeps.last] at hlt
  omega

theorem LeafInv.map {pt pt' : PageTable} {p p' : Phys} {v c e : Nat}
    (hinv : LeafInv p₀ pt p) (hc : c < 2 ^ 44) (he : e < 2 ^ 10) (hin : p.allocator.InUse c)
    (hapart : ∀ w bits, pt.validEntry w = some bits → ptePpn bits ≠ c)
    (hmap : pt.map v c e p = some (pt', p')) :
    LeafInv p₀ pt' p' ∧ Preserves pt pt' p p' ∧ pt.validEntry v = none ∧
      pt'.validEntry v = some (pteNew c (e ||| pteV)) := by
  obtain ⟨hbefore, hafter, hother⟩ := map_spec hmap
  have hkeep := map_keeps hinv.keeps.valid hmap
  have hppn : ptePpn (pteNew c (e ||| pteV)) = c := ptePpn_pteNew hc (Nat.or_lt_two_pow he (by decide))
  have hleaf : ∀ w bits, pt'.validEntry w = some bits →
      (leafIndex w = leafIndex v ∧ bits = pteNew c (e ||| pteV)) ∨
        (leafIndex w ≠ leafIndex v ∧ pt.validEntry w = some bits) := by
    intro w bits hw
    by_cases hwv : leafIndex w = leafIndex v
    · rw [validEntry_congr _ hwv, hafter] at hw
      exact Or.inl ⟨hwv, (Option.some.inj hw).symm⟩
    · rw [hother w hwv] at hw
      exact Or.inr ⟨hwv, hw⟩
  refine ⟨⟨hinv.keeps.trans hkeep, ?_, ?_⟩, ?_, hbefore, hafter⟩
  · intro w bits hw
    rcases hleaf w bits hw with ⟨-, rfl⟩ | ⟨-, hold⟩
    · rw [hppn]
      exact hkeep.inUse c hin
    · exact hkeep.inUse _ (hinv.inUse w bits hold)
  · intro w w' bits bits' hne hw hw'
    rcases hleaf w bits hw with ⟨hwv, rfl⟩ | ⟨hwv, hold⟩ <;>
      rcases hleaf w' bits' hw' with ⟨hwv', rfl⟩ | ⟨hwv', hold'⟩
    · exact absurd (hwv.trans hwv'.symm) hne
    · rw [hppn]
      exact (hapart w' bits' hold').symm
    · rw [hppn]
      exact hapart w bits hold
    · exact hinv.inj w w' bits bits' hne hold hold'
  · intro w bits hw
    have hwv : leafIndex w ≠ leafIndex v := leafIndex_ne_of_validEntry hw hbefore
    exact ⟨by rw [hother w hwv]; exact hw, hkeep.mem _ (hinv.inUse w bits hw)⟩

theorem LeafInv.allocMap {pt pt' : PageTable} {p p₁ p' : Phys} {v c e : Nat}
    (hinv : LeafInv p₀ pt p) (hlast : p₀.allocator.last ≤ 2 ^ 44) (he : e < 2 ^ 10)
    (halloc : frameAlloc p = some (c, p₁)) (hmap : pt.map v c e p₁ = some (pt', p')) :
    LeafInv p₀ pt' p' ∧ Preserves pt pt' p p' ∧ pt.validEntry v = none ∧
      pt'.validEntry v = some (pteNew c (e ||| pteV)) ∧ c < 2 ^ 44 ∧
      ¬ p₀.allocator.InUse c := by
  obtain ⟨hkeep, hfresh, hin⟩ := frameAlloc_keeps hinv.keeps.valid halloc
  have hinv₁ := hinv.of_keeps hkeep
  have hc := hinv₁.lt_two_pow hlast hin
  have hapart : ∀ w bits, pt.validEntry w = some bits → ptePpn bits ≠ c := by
    rintro w bits hw rfl
    exact hfresh (hinv.inUse w bits hw)
  obtain ⟨hinv', hpres, hbefore, hafter⟩ := hinv₁.map hc he hin hapart hmap
  have hpres₁ : Preserves pt pt p p₁ := fun w bits hw => ⟨hw, hkeep.mem _ (hinv.inUse w bits hw)⟩
  exact ⟨hinv', hpres₁.trans hpres, hbefore, hafter, hc,
    fun h₀ => hfresh (hinv.keeps.inUse c h₀)⟩

theorem LeafInv.copy {pt : PageTable} {p p' : Phys} {w c e src : Nat} {u : Unit}
    (hinv : LeafInv p₀ pt p) (hc : c < 2 ^ 44) (he : e < 2 ^ 10)
    (hw : pt.validEntry w = some (pteNew c e)) (hfresh : ¬ p₀.allocator.InUse c)
    (hcopy : copyFrame c src p = some (u, p')) :
    LeafInv p₀ pt p' ∧ p'.mem c = p.mem src ∧
      ∀ v bits, leafIndex v ≠ leafIndex w → pt.validEntry v = some bits →
        p'.mem (ptePpn bits) = p.mem (ptePpn bits) := by
  obtain ⟨halloc, hmem⟩ := copyFrame_spec hcopy
  have hppn : ptePpn (pteNew c e) = c := ptePpn_pteNew hc he
  have hkeep : p₀.Keeps p' := by
    refine ⟨halloc ▸ hinv.keeps.valid, by rw [halloc, hinv.keeps.last],
      fun q hq => halloc ▸ hinv.keeps.inUse q hq, fun q hq => ?_⟩
    have hne : q ≠ c := by
      rintro rfl
      exact hfresh hq
    rw [hmem, Function.update_of_ne hne]
    exact hinv.keeps.mem q hq
  refine ⟨⟨hkeep, fun v bits hv => halloc ▸ hinv.inUse v bits hv, hinv.inj⟩, by simp [hmem], ?_⟩
  intro v bits hvw hv
  have hne : ptePpn bits ≠ c := by
    rw [← hppn]
    exact hinv.inj v w bits _ hvw hv hw
  rw [hmem, Function.update_of_ne hne]

theorem MapLoopInv.mapOne {pt q q' : PageTable} {p s s' : Phys} {area a a' : MapArea} {x : Nat}
    (hinv : MapLoopInv p₀ pt p area a q s) (hlast : p₀.allocator.last ≤ 2 ^ 44)
    (he : area.mapPerm < 2 ^ 10) (hone : a.mapOne q x s = some ((a', q'), s')) :
    MapLoopInv p₀ pt p area a' q' s' ∧ (SortedMap.get? a'.dataFrames x).isSome := by
  obtain ⟨c, s₁, s₂, halloc, hdrop, hmap, hdata, hframed', hperm'⟩ :=
    MapArea.mapOne_framed hinv.framed hone
  have hnone : q.validEntry x = none := (map_spec hmap).1
  have hkey : SortedMap.get? a.dataFrames x = none := by
    cases hk : SortedMap.get? a.dataFrames x with
    | none => rfl
    | some f =>
        obtain ⟨-, c', -, hc', -⟩ := hinv.fresh x f hk
        rw [hnone] at hc'
        cases hc'
  rw [SortedMap.insert_snd_of_get?_eq_none _ hkey] at hdrop
  obtain ⟨-, rfl⟩ := pure_eq_some.mp hdrop
  rw [hinv.perm] at hmap
  obtain ⟨hinvq', hpresq, -, hafter, hc, hfresh⟩ := hinv.leafInv.allocMap hlast he halloc hmap
  have hfar : ∀ k f, SortedMap.get? a.dataFrames k = some f → leafIndex x ≠ leafIndex k := by
    intro k f hk
    obtain ⟨-, c', -, hc', -⟩ := hinv.fresh k f hk
    exact (leafIndex_ne_of_validEntry hc' hnone).symm
  refine ⟨⟨hinvq', hinv.pres.trans hpresq, hframed', hperm'.trans hinv.perm, ?_, ?_⟩, ?_⟩
  · intro k f hk
    simp only [hdata, SortedMap.get?_insert] at hk
    by_cases hkx : k = x
    · subst hkx
      exact ⟨hinv.pres.validEntry_eq_none hnone, c, hc, hafter, hfresh⟩
    · rw [if_neg hkx] at hk
      obtain ⟨hpk, c', hc', hq, hfresh'⟩ := hinv.fresh k f hk
      exact ⟨hpk, c', hc', (hpresq k _ hq).1, hfresh'⟩
  · intro k k' f f' hk hk' hne
    simp only [hdata, SortedMap.get?_insert] at hk hk'
    by_cases hkx : k = x <;> by_cases hkx' : k' = x
    · exact absurd (hkx.trans hkx'.symm) hne
    · rw [if_neg hkx'] at hk'
      subst hkx
      exact hfar k' f' hk'
    · rw [if_neg hkx] at hk
      subst hkx'
      exact fun heq => hfar k f hk heq.symm
    · rw [if_neg hkx] at hk
      rw [if_neg hkx'] at hk'
      exact hinv.apart k k' f f' hk hk' hne
  · simp [hdata, SortedMap.get?_insert]

theorem LeafInv.mapArea {area area' : MapArea} {pt pt' : PageTable} {p p' : Phys}
    (hinv : LeafInv p₀ pt p) (hlast : p₀.allocator.last ≤ 2 ^ 44)
    (hframed : area.mapType = .framed) (hperm : area.mapPerm < 2 ^ 8)
    (hempty : area.dataFrames = []) (h : area.map pt p = some ((area', pt'), p')) :
    LeafInv p₀ pt' p' ∧ Preserves pt pt' p p' ∧
      (∀ v ∈ area.vpnRange.toList, pt.validEntry v = none ∧ ∃ c, c < 2 ^ 44 ∧
        pt'.validEntry v = some (pteNew c (area.mapPerm ||| pteV)) ∧ ¬ p₀.allocator.InUse c) ∧
      (∀ v ∈ area.vpnRange.toList, ∀ w ∈ area.vpnRange.toList, v ≠ w →
        leafIndex v ≠ leafIndex w) := by
  rw [MapArea.map_framed hframed] at h
  have he : area.mapPerm < 2 ^ 10 := by omega
  let done : Nat → MapArea × PageTable → Phys → Prop := fun v b _ =>
    (SortedMap.get? b.1.dataFrames v).isSome
  have hinit : MapLoopInv p₀ pt p area area pt p :=
    ⟨hinv, Preserves.refl pt p, hframed, rfl, by simp [hempty], by simp [hempty]⟩
  obtain ⟨hloop, hall⟩ :=
    foldlM_forall_mem _ (fun b s => MapLoopInv p₀ pt p area b.1 b.2 s) done
      (fun ⟨_, _⟩ _ _ ⟨_, _⟩ _ _ hb hone => hb.mapOne hlast he hone)
      (fun ⟨_, _⟩ _ _ _ ⟨_, _⟩ _ _ hb hdone hone => MapArea.mapOne_keeps_key hb.framed hone hdone)
      hinit h
  refine ⟨hloop.leafInv, hloop.pres, fun v hv => ?_, fun v hv w hw hne => ?_⟩
  · obtain ⟨f, hf⟩ := Option.isSome_iff_exists.mp (hall v hv)
    exact hloop.fresh v f hf
  · obtain ⟨f, hf⟩ := Option.isSome_iff_exists.mp (hall v hv)
    obtain ⟨f', hf'⟩ := Option.isSome_iff_exists.mp (hall w hw)
    exact hloop.apart v w f f' hf hf' hne

/-- One page of the copy loop of `clone_area`: the child's fresh frame for `x`
    receives the bytes of the parent's frame, and every page mapped before the
    area, at another leaf, keeps its bytes. -/
theorem LeafInv.copyPage {user ms ms' : MemorySet} {x f e : Nat} {p s s' : Phys}
    (hinvs : LeafInv p₀ ms'.pageTable s) (hpres : Preserves ms.pageTable ms'.pageTable p s)
    (hlast : p₀.allocator.last ≤ 2 ^ 44) (he : e < 2 ^ 10)
    (hf : user.pageTable.validEntry x = some (pteNew f e)) (hf₀ : p₀.allocator.InUse f)
    (hfresh : ms.pageTable.validEntry x = none ∧ ∃ c, c < 2 ^ 44 ∧
      ms'.pageTable.validEntry x = some (pteNew c e) ∧ ¬ p₀.allocator.InUse c)
    (hone : user.copyPage ms' x s = some (⟨⟩, s')) :
    (LeafInv p₀ ms'.pageTable s' ∧ Preserves ms.pageTable ms'.pageTable p s') ∧
      Copied p₀ ms'.pageTable s' x e f ∧
      ∀ v bits, leafIndex v ≠ leafIndex x → ms'.pageTable.validEntry v = some bits →
        s'.mem (ptePpn bits) = s.mem (ptePpn bits) := by
  obtain ⟨src, dst, hsrcx, hdstx, hcopyx⟩ := MemorySet.copyPage_eq_some hone
  obtain ⟨hunmapped, c, hc, hw, hfreshc⟩ := hfresh
  have hfb : f < 2 ^ 44 := hinvs.lt_two_pow hlast (hinvs.keeps.inUse f hf₀)
  have hsrcv : src = pteNew f e := Option.some.inj (hsrcx.symm.trans (validEntry_eq_some.mp hf).1)
  have hdstv : dst = pteNew c e := Option.some.inj (hdstx.symm.trans (validEntry_eq_some.mp hw).1)
  rw [hsrcv, hdstv, ptePpn_pteNew hfb he, ptePpn_pteNew hc he] at hcopyx
  obtain ⟨hinvs', hcopied, hothers⟩ := hinvs.copy hc he hw hfreshc hcopyx
  refine ⟨⟨hinvs', fun v bits hv => ?_⟩, ⟨c, hc, hw, hfreshc, ?_⟩, hothers⟩
  · have hvx : leafIndex v ≠ leafIndex x := leafIndex_ne_of_validEntry hv hunmapped
    obtain ⟨hv', hmem⟩ := hpres v bits hv
    exact ⟨hv', (hothers v bits hvx hv').trans hmem⟩
  · rw [hcopied]
    exact hinvs.keeps.mem f hf₀

theorem LeafInv.cloneArea {user ms ms' : MemorySet} {area : MapArea} {p p' : Phys}
    (hinv : LeafInv p₀ ms.pageTable p) (hlast : p₀.allocator.last ≤ 2 ^ 44)
    (hframed : area.mapType = .framed) (hperm : area.mapPerm < 2 ^ 8)
    (hsrc : ∀ v ∈ area.vpnRange.toList, ∃ f,
      user.pageTable.validEntry v = some (pteNew f (area.mapPerm ||| pteV)) ∧ p₀.allocator.InUse f)
    (h : user.cloneArea ms area p = some (ms', p')) :
    LeafInv p₀ ms'.pageTable p' ∧ Preserves ms.pageTable ms'.pageTable p p' ∧
      ms'.heapArea = ms.heapArea ∧ ms'.mmapArea = ms.mmapArea ∧ ms'.mmapEnd = ms.mmapEnd ∧
      ∀ v ∈ area.vpnRange.toList, ∃ f,
        user.pageTable.validEntry v = some (pteNew f (area.mapPerm ||| pteV)) ∧
        Copied p₀ ms'.pageTable p' v (area.mapPerm ||| pteV) f := by
  obtain ⟨p₁, hpush, hcopy⟩ := MemorySet.cloneArea_eq_some h
  obtain ⟨area', hmap, hms'⟩ := MemorySet.push_none_eq_some hpush
  obtain ⟨hinv₁, hpres₁, hfresh, hapart⟩ :=
    @LeafInv.mapArea p₀ (MapArea.fromAnother area) area' ms.pageTable ms'.pageTable p p₁
      hinv hlast hframed hperm rfl hmap
  have he : area.mapPerm ||| pteV < 2 ^ 10 := Nat.or_lt_two_pow (by omega) (by decide)
  let inv : Phys → Prop := fun s =>
    LeafInv p₀ ms'.pageTable s ∧ Preserves ms.pageTable ms'.pageTable p s
  let done : Nat → Phys → Prop := fun v s => v ∈ area.vpnRange.toList ∧ ∃ f,
    user.pageTable.validEntry v = some (pteNew f (area.mapPerm ||| pteV)) ∧
    Copied p₀ ms'.pageTable s v (area.mapPerm ||| pteV) f
  have hstep : ∀ x s s', x ∈ area.vpnRange.toList → inv s →
      user.copyPage ms' x s = some (⟨⟩, s') → inv s' ∧ done x s' ∧
        ∀ v bits, leafIndex v ≠ leafIndex x → ms'.pageTable.validEntry v = some bits →
          s'.mem (ptePpn bits) = s.mem (ptePpn bits) := by
    intro x s s' hx ⟨hinvs, hpres⟩ hone
    obtain ⟨f, hf, hf₀⟩ := hsrc x hx
    obtain ⟨hinv', hcopied, hothers⟩ := hinvs.copyPage hpres hlast he hf hf₀ (hfresh x hx) hone
    exact ⟨hinv', ⟨hx, f, hf, hcopied⟩, hothers⟩
  obtain ⟨⟨hinv', hpres'⟩, hall⟩ := forM_forall_mem (user.copyPage ms') inv done
    (fun x s s' hx hs hone => ⟨(hstep x s s' hx hs hone).1, (hstep x s s' hx hs hone).2.1⟩)
    (fun x y s s' hx hs hdone hone => by
      by_cases hxy : x = y
      · subst hxy
        exact (hstep x s s' hx hs hone).2.1
      · obtain ⟨hy, f, hf, c, hc, hw, hfreshc, hmem⟩ := hdone
        have hkept := (hstep x s s' hx hs hone).2.2 y _ (hapart y hy x hx (Ne.symm hxy)) hw
        rw [ptePpn_pteNew hc he] at hkept
        exact ⟨hy, f, hf, c, hc, hw, hfreshc, hkept.trans hmem⟩)
    ⟨hinv₁, hpres₁⟩ hcopy
  exact ⟨hinv', hpres', by rw [hms'], by rw [hms'], by rw [hms'], fun v hv => (hall v hv).2⟩

/-- One page of `heap_area` or `mmap_area`: a fresh frame, mapped `U | R | W` at a
    leaf that was not mapped, recorded in the child's map and filled from the
    parent's frame. -/
theorem LeafInv.cloneFrame {pt pt' : PageTable} {owned owned' : List (Nat × FrameTracker)}
    {p p' : Phys} {v : Nat} {src : FrameTracker}
    (hinv : LeafInv p₀ pt p) (hlast : p₀.allocator.last ≤ 2 ^ 44)
    (hkeys : ∀ k f, SortedMap.get? owned k = some f → pt.validEntry k ≠ none)
    (hsrc : p₀.allocator.InUse src.ppn)
    (h : MemorySet.cloneFrame pt owned v src p = some ((pt', owned'), p')) :
    LeafInv p₀ pt' p' ∧ Preserves pt pt' p p' ∧ pt.validEntry v = none ∧ ∃ c,
      owned' = (SortedMap.insert owned v ⟨c, true⟩).1 ∧ c < 2 ^ 44 ∧
      pt'.validEntry v = some (pteNew c (pteU ||| pteR ||| pteW ||| pteV)) ∧
      ¬ p₀.allocator.InUse c ∧ p'.mem c = p₀.mem src.ppn := by
  obtain ⟨c, p₁, p₂, p₃, halloc, hmap, hdrop, hcopy, howned⟩ := MemorySet.cloneFrame_eq_some h
  obtain ⟨hinv₂, hpres₂, hnone, hafter, hc, hfresh⟩ :=
    hinv.allocMap hlast (by decide : pteU ||| pteR ||| pteW < 2 ^ 10) halloc hmap
  have hkey : SortedMap.get? owned v = none := by
    cases hk : SortedMap.get? owned v with
    | none => rfl
    | some f => exact absurd hnone (hkeys v f hk)
  rw [SortedMap.insert_snd_of_get?_eq_none _ hkey] at hdrop
  obtain ⟨-, rfl⟩ := pure_eq_some.mp hdrop
  obtain ⟨hinv', hmem, hothers⟩ :=
    hinv₂.copy hc (by decide : pteU ||| pteR ||| pteW ||| pteV < 2 ^ 10) hafter hfresh hcopy
  refine ⟨hinv', fun w bits hw => ?_, hnone, c, howned, hc, hafter, hfresh, ?_⟩
  · obtain ⟨hw', hmem'⟩ := hpres₂ w bits hw
    exact ⟨hw', (hothers w bits (leafIndex_ne_of_validEntry hw hnone) hw').trans hmem'⟩
  · rw [hmem]
    exact hinv₂.keeps.mem _ hsrc

theorem LeafInv.cloneFrames {pt pt' : PageTable} {owned owned' src : List (Nat × FrameTracker)}
    {p p' : Phys} (hinv : LeafInv p₀ pt p) (hlast : p₀.allocator.last ≤ 2 ^ 44)
    (hkeys : ∀ k f, SortedMap.get? owned k = some f → pt.validEntry k ≠ none)
    (hsrc : ∀ entry ∈ src, p₀.allocator.InUse entry.2.ppn)
    (h : MemorySet.cloneFrames pt owned src p = some ((pt', owned'), p')) :
    LeafInv p₀ pt' p' ∧ Preserves pt pt' p p' ∧
      (∀ k f, SortedMap.get? owned' k = some f → pt'.validEntry k ≠ none) ∧
      ∀ entry ∈ src, OwnedCopy p₀ pt' owned' p' entry.1 (pteU ||| pteR ||| pteW ||| pteV) entry.2.ppn := by
  have he : pteU ||| pteR ||| pteW ||| pteV < 2 ^ 10 := by decide
  let inv : PageTable × List (Nat × FrameTracker) → Phys → Prop := fun b s =>
    LeafInv p₀ b.1 s ∧ Preserves pt b.1 p s ∧
      ∀ k f, SortedMap.get? b.2 k = some f → b.1.validEntry k ≠ none
  let done : Nat × FrameTracker → PageTable × List (Nat × FrameTracker) → Phys → Prop :=
    fun entry b s => OwnedCopy p₀ b.1 b.2 s entry.1 (pteU ||| pteR ||| pteW ||| pteV) entry.2.ppn
  unfold MemorySet.cloneFrames at h
  have hfold := foldlM_forall_mem _ inv done ?step ?last ⟨hinv, Preserves.refl pt p, hkeys⟩ h
  · obtain ⟨⟨hinv', hpres', hkeys'⟩, hall⟩ := hfold
    exact ⟨hinv', hpres', hkeys', hall⟩
  case step =>
    intro b x s b' s' hx hb hone
    obtain ⟨q, o⟩ := b
    obtain ⟨q', o'⟩ := b'
    obtain ⟨v, f⟩ := x
    obtain ⟨hinvq, hpres, hkeysq⟩ := hb
    obtain ⟨hinvq', hpresq, -, c, howned, hc, hafter, hfresh, hmem⟩ :=
      hinvq.cloneFrame hlast hkeysq (hsrc _ hx) hone
    refine ⟨⟨hinvq', hpres.trans hpresq, fun k g hk => ?_⟩,
      c, by simp [howned, SortedMap.get?_insert], hc, hafter, hfresh, hmem⟩
    rw [howned, SortedMap.get?_insert] at hk
    by_cases hkv : k = v
    · subst hkv
      simp [hafter]
    · rw [if_neg hkv] at hk
      exact fun hnone => hkeysq k g hk (hpresq.validEntry_eq_none hnone)
  case last =>
    intro b x y s b' s' hx hb hdone hone
    obtain ⟨q, o⟩ := b
    obtain ⟨q', o'⟩ := b'
    obtain ⟨v, f⟩ := x
    obtain ⟨hinvq, -, hkeysq⟩ := hb
    obtain ⟨-, hpresq, hnone, c, howned, -⟩ := hinvq.cloneFrame hlast hkeysq (hsrc _ hx) hone
    obtain ⟨c', -, -, hentry, -⟩ := id hdone
    have hne : y.1 ≠ v := fun heq => leafIndex_ne_of_validEntry hentry hnone (congrArg leafIndex heq)
    exact OwnedCopy.preserve he hdone hpresq (by rw [howned, SortedMap.get?_insert, if_neg hne])

theorem LeafInv.start {ms₁ ms₂ ms₃ : MemorySet} {p₁ p₂ p₃ : Phys}
    {strampoline ssignaltrampoline : Nat} (hvalid : p₀.allocator.Valid)
    (hlast : p₀.allocator.last ≤ 2 ^ 44) (hs : p₀.allocator.InUse strampoline)
    (hss : p₀.allocator.InUse ssignaltrampoline) (hne : strampoline ≠ ssignaltrampoline)
    (hbare : MemorySet.newBare p₀ = some (ms₁, p₁))
    (htramp : ms₁.mapTrampoline strampoline p₁ = some (ms₂, p₂))
    (hsig : ms₂.mapSignaltrampoline ssignaltrampoline p₂ = some (ms₃, p₃)) :
    LeafInv p₀ ms₃.pageTable p₃ ∧ ms₃.heapArea = [] ∧ ms₃.mmapArea = [] ∧
      ms₃.pageTable.validEntry (floor (vaFromUsize trampoline)) =
        some (pteNew strampoline (pteR ||| pteX ||| pteV)) ∧
      ms₃.pageTable.validEntry (floor (vaFromUsize signalTrampoline)) =
        some (pteNew ssignaltrampoline (pteR ||| pteX ||| pteU ||| pteV)) := by
  obtain ⟨hnew, -, hheap, hmmap⟩ := MemorySet.newBare_eq_some hbare
  obtain ⟨halloc, hempty⟩ := new_spec hnew
  obtain ⟨hkeep, -, -⟩ := frameAlloc_keeps hvalid halloc
  have hinv₁ : LeafInv p₀ ms₁.pageTable p₁ :=
    ⟨hkeep, fun v bits hv => absurd ((hempty v).symm.trans hv) (by simp),
      fun v _ bits _ _ hv => absurd ((hempty v).symm.trans hv) (by simp)⟩
  have hs' : strampoline < 2 ^ 44 := hinv₁.lt_two_pow hlast (hkeep.inUse _ hs)
  have hss' : ssignaltrampoline < 2 ^ 44 := hinv₁.lt_two_pow hlast (hkeep.inUse _ hss)
  obtain ⟨hmap₂, hms₂⟩ := MemorySet.mapTrampoline_eq_some htramp
  obtain ⟨hmap₃, hms₃⟩ := MemorySet.mapSignaltrampoline_eq_some hsig
  obtain ⟨hinv₂, -, -, htr⟩ := hinv₁.map hs' (by decide) (hkeep.inUse _ hs)
    (fun w bits hw => absurd ((hempty w).symm.trans hw) (by simp)) hmap₂
  have honly : ∀ w bits, ms₂.pageTable.validEntry w = some bits →
      bits = pteNew strampoline (pteR ||| pteX ||| pteV) := by
    intro w bits hw
    by_cases hwt : leafIndex w = leafIndex (floor (vaFromUsize trampoline))
    · rw [validEntry_congr _ hwt, htr] at hw
      exact (Option.some.inj hw).symm
    · rw [(map_spec hmap₂).2.2 w hwt, hempty] at hw
      cases hw
  obtain ⟨hinv₃, hpres₃, -, hsg⟩ := hinv₂.map hss' (by decide) (hinv₂.keeps.inUse _ hss)
    (fun w bits hw => by rw [honly w bits hw, ptePpn_pteNew hs' (by decide)]; exact hne) hmap₃
  refine ⟨hinv₃, ?_, ?_, (hpres₃ _ _ htr).1, hsg⟩
  · rw [hms₃, hms₂]
    exact hheap
  · rw [hms₃, hms₂]
    exact hmmap

/-- What `from_existed_user` relies on in the parent: the trampolines and every
    page the parent owns sit in frames in use, the areas are framed with their
    pages mapped with the area's flags, and no frame number is too wide for an
    entry. -/
structure ForkReady (user : MemorySet) (p₀ : Phys) (strampoline ssignaltrampoline : Nat) :
    Prop where
  valid : p₀.allocator.Valid
  lastLe : p₀.allocator.last ≤ 2 ^ 44
  trampolineInUse : p₀.allocator.InUse strampoline
  signaltrampolineInUse : p₀.allocator.InUse ssignaltrampoline
  trampolinesApart : strampoline ≠ ssignaltrampoline
  framed : ∀ area ∈ user.areas, area.mapType = .framed ∧ area.mapPerm < 2 ^ 8
  areaFrames : ∀ area ∈ user.areas, ∀ v ∈ area.vpnRange.toList, ∃ f,
    user.pageTable.validEntry v = some (pteNew f (area.mapPerm ||| pteV)) ∧ p₀.allocator.InUse f
  heapFrames : ∀ entry ∈ user.heapArea, p₀.allocator.InUse entry.2.ppn
  mmapFrames : ∀ entry ∈ user.mmapArea, p₀.allocator.InUse entry.2.ppn

/-- What `from_existed_user` builds: the trampolines; every page of every area
    copied into a fresh frame with the area's flags; every page of `heap_area`
    and `mmap_area` copied into a fresh frame recorded in the child's map and
    mapped `U | R | W`, whatever flags the parent's page has; `mmap_end`; and
    the parent's frames untouched. -/
theorem fromExistedUser_copies {user child : MemorySet} {p₀ p : Phys}
    {strampoline ssignaltrampoline : Nat} (hready : ForkReady user p₀ strampoline ssignaltrampoline)
    (h : user.fromExistedUser strampoline ssignaltrampoline p₀ = some (child, p)) :
    child.mmapEnd = user.mmapEnd ∧ (∀ q, p₀.allocator.InUse q → p.mem q = p₀.mem q) ∧
      child.pageTable.validEntry (floor (vaFromUsize trampoline)) =
        some (pteNew strampoline (pteR ||| pteX ||| pteV)) ∧
      child.pageTable.validEntry (floor (vaFromUsize signalTrampoline)) =
        some (pteNew ssignaltrampoline (pteR ||| pteX ||| pteU ||| pteV)) ∧
      (∀ area ∈ user.areas, ∀ v ∈ area.vpnRange.toList, ∃ f,
        user.pageTable.validEntry v = some (pteNew f (area.mapPerm ||| pteV)) ∧
        Copied p₀ child.pageTable p v (area.mapPerm ||| pteV) f) ∧
      (∀ entry ∈ user.heapArea, OwnedCopy p₀ child.pageTable child.heapArea p entry.1
        (pteU ||| pteR ||| pteW ||| pteV) entry.2.ppn) ∧
      (∀ entry ∈ user.mmapArea, OwnedCopy p₀ child.pageTable child.mmapArea p entry.1
        (pteU ||| pteR ||| pteW ||| pteV) entry.2.ppn) := by
  obtain ⟨ms₁, ms₂, ms₃, ms₄, p₁, p₂, p₃, p₄, pt, heap, p₅, pt', mmap, hbare, htramp, hsig,
    hareas, hheap, hmmap, rfl⟩ := MemorySet.fromExistedUser_eq_some h
  obtain ⟨hinv₃, hheap₃, hmmap₃, htr, hsg⟩ := LeafInv.start hready.valid hready.lastLe
    hready.trampolineInUse hready.signaltrampolineInUse hready.trampolinesApart hbare htramp hsig
  have he : ∀ area ∈ user.areas, area.mapPerm ||| pteV < 2 ^ 10 := fun area harea =>
    Nat.or_lt_two_pow (by have := (hready.framed area harea).2; omega) (by decide)
  -- the areas one after another: each copies its own pages and keeps every page
  -- mapped before it
  let inv : MemorySet → Phys → Prop := fun ms s =>
    LeafInv p₀ ms.pageTable s ∧ Preserves ms₃.pageTable ms.pageTable p₃ s ∧
      ms.heapArea = [] ∧ ms.mmapArea = [] ∧ ms.mmapEnd = user.mmapEnd
  let done : MapArea → MemorySet → Phys → Prop := fun area ms s =>
    area ∈ user.areas ∧ ∀ v ∈ area.vpnRange.toList, ∃ f,
      user.pageTable.validEntry v = some (pteNew f (area.mapPerm ||| pteV)) ∧
      Copied p₀ ms.pageTable s v (area.mapPerm ||| pteV) f
  obtain ⟨⟨hinv₄, hpres₄, hheap₄, hmmap₄, hend₄⟩, hall₄⟩ := foldlM_forall_mem (MemorySet.cloneArea user) inv done
    (fun ms area s ms' s' harea hms hone => by
      obtain ⟨hinv, hpres, hh, hm, hend⟩ := hms
      obtain ⟨hframed, hperm⟩ := hready.framed area harea
      obtain ⟨hinv', hpres', hh', hm', hend', hcopied⟩ :=
        hinv.cloneArea hready.lastLe hframed hperm (hready.areaFrames area harea) hone
      exact ⟨⟨hinv', hpres.trans hpres', hh'.trans hh, hm'.trans hm, hend'.trans hend⟩,
        harea, hcopied⟩)
    (fun ms area area' s ms' s' harea hms hdone hone => by
      obtain ⟨hframed, hperm⟩ := hready.framed area harea
      obtain ⟨-, hpres', -⟩ :=
        hms.1.cloneArea hready.lastLe hframed hperm (hready.areaFrames area harea) hone
      obtain ⟨harea', hcopied⟩ := hdone
      refine ⟨harea', fun v hv => ?_⟩
      obtain ⟨f, hf, hcopy⟩ := hcopied v hv
      exact ⟨f, hf, hcopy.preserve (he area' harea') hpres'⟩)
    (show inv { ms₃ with mmapEnd := user.mmapEnd } p₃ from
      ⟨hinv₃, Preserves.refl _ _, hheap₃, hmmap₃, rfl⟩) hareas
  obtain ⟨hinv₅, hpres₅, -, hheapc⟩ :=
    hinv₄.cloneFrames hready.lastLe (by simp [hheap₄]) hready.heapFrames hheap
  obtain ⟨hinv₆, hpres₆, -, hmmapc⟩ :=
    hinv₅.cloneFrames hready.lastLe (by simp [hmmap₄]) hready.mmapFrames hmmap
  have hlater := hpres₅.trans hpres₆
  have hall := hpres₄.trans hlater
  refine ⟨hend₄, hinv₆.keeps.mem, (hall _ _ htr).1, (hall _ _ hsg).1, fun area harea v hv => ?_,
    fun entry hentry => (hheapc entry hentry).preserve (by decide) hpres₆ rfl, hmmapc⟩
  obtain ⟨f, hf, hcopy⟩ := (hall₄ area harea).2 v hv
  exact ⟨f, hf, hcopy.preserve (he area harea) hlater⟩

end Fork

end OsKernel.Mm
