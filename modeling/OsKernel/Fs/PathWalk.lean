import OsKernel.Fs.DirectoryTree

/-! # What a path resolves to

`parse_dir_path` of `fs/directory_tree.rs` folds the `/`-separated components
of a path into a run of `..` followed by names.  That normal form is its own
normal form once joined back by `/`.  On a tree whose cached children lead back
to their parents by `..`, `cd_comp` of it reaches the node that a walk of the
raw components one by one reaches, where a name and the `..` after it cancel.
On a tree whose father links agree with its cached children, the path that
`get_cwd` gives a node is one that `cd_path` takes back to the node.
-/

namespace OsKernel.Fs

open DirectoryTree Fallible

/-! ### The components of a path -/

theorem not_mem_of_mem_splitOn {c : Char} {path s : List Char} (hs : s ∈ path.splitOn c) : c ∉ s := by
  induction path generalizing s with
  | nil =>
    rw [List.splitOn_nil, List.mem_singleton] at hs
    subst hs
    exact List.not_mem_nil
  | cons x xs ih =>
    rw [List.splitOn_cons_eq_if_modifyHead] at hs
    split_ifs at hs with hx
    · rcases List.mem_cons.mp hs with rfl | hs
      · exact List.not_mem_nil
      · exact ih hs
    · obtain ⟨r, rs, hr⟩ := List.exists_cons_of_ne_nil (List.splitOn_ne_nil c xs)
      rw [hr, List.modifyHead_cons] at hs
      rcases List.mem_cons.mp hs with rfl | hs
      · intro hc
        rcases List.mem_cons.mp hc with rfl | hc
        · simp at hx
        · exact ih (hr ▸ List.mem_cons_self) hc
      · exact ih (hr ▸ List.mem_cons_of_mem _ hs)

theorem mem_of_mem_parseDirPathStep {v : List (List Char)} {s x : List Char}
    (h : x ∈ parseDirPathStep v s) : x ∈ v ∨ x = s := by
  unfold parseDirPathStep at h
  split_ifs at h
  · exact .inl h
  · rcases List.mem_append.mp h with h | h
    · exact .inl h
    · exact .inr (List.mem_singleton.mp h)
  · exact .inl (List.mem_of_mem_dropLast h)
  · rcases List.mem_append.mp h with h | h
    · exact .inl h
    · exact .inr (List.mem_singleton.mp h)

theorem mem_splitOn_of_mem_parseDirPath {path s : List Char} (h : s ∈ parseDirPath path) :
    s ∈ path.splitOn '/' := by
  suffices hfold : ∀ (xs : List (List Char)) v, s ∈ xs.foldl parseDirPathStep v → s ∈ v ∨ s ∈ xs from
    (hfold _ [] h).resolve_left List.not_mem_nil
  intro xs
  induction xs with
  | nil => exact fun _ hv => .inl hv
  | cons x xs ih =>
    intro v hv
    rcases ih _ hv with hv | hv
    · rcases mem_of_mem_parseDirPathStep hv with hv | rfl
      · exact .inl hv
      · exact .inr List.mem_cons_self
    · exact .inr (List.mem_cons_of_mem x hv)

theorem NormalPath.ne_of_mem {v : List (List Char)} (hv : NormalPath v) {s : List Char} (h : s ∈ v) :
    s ≠ [] ∧ s ≠ ['.'] := by
  obtain ⟨k, rest, rfl, hrest⟩ := hv
  rcases List.mem_append.mp h with h | h
  · rw [List.eq_of_mem_replicate h]
    exact ⟨by simp, by simp⟩
  · exact ⟨(hrest s h).1, (hrest s h).2.1⟩

theorem foldl_parseDirPathStep_up (k : Nat) :
    ∀ j, (List.replicate k ['.', '.']).foldl parseDirPathStep (List.replicate j ['.', '.']) =
      List.replicate (j + k) ['.', '.'] := by
  induction k with
  | zero => intro j; rfl
  | succ k ih =>
    intro j
    have hstep : parseDirPathStep (List.replicate j ['.', '.']) ['.', '.'] =
        List.replicate (j + 1) ['.', '.'] := by
      have hall : ((List.replicate j ['.', '.']).getLast?).all (· = ['.', '.']) = true := by
        cases j <;> simp [List.getLast?_replicate]
      simp only [parseDirPathStep, hall, if_true, List.replicate_succ']
      simp
    rw [List.replicate_succ, List.foldl_cons, hstep, ih]
    congr 1
    omega

theorem foldl_parseDirPathStep_normal {v : List (List Char)} (hv : NormalPath v) :
    v.foldl parseDirPathStep [] = v := by
  obtain ⟨k, rest, rfl, hrest⟩ := hv
  have hup := foldl_parseDirPathStep_up k 0
  rw [List.replicate_zero, Nat.zero_add] at hup
  rw [List.foldl_append, hup, foldl_parseDirPathStep_of_no_up (fun s hs => (hrest s hs).2.2)]
  congr 1
  exact List.filter_eq_self.mpr fun s hs => by simp [(hrest s hs).1, (hrest s hs).2.1]

theorem parseDirPath_intercalate (path : List Char) :
    parseDirPath (['/'].intercalate (parseDirPath path)) = parseDirPath path := by
  by_cases hnil : parseDirPath path = []
  · rw [hnil]
    rfl
  · show ((['/'].intercalate (parseDirPath path)).splitOn '/').foldl parseDirPathStep [] = _
    rw [List.splitOn_intercalate '/'
        (fun s hs => not_mem_of_mem_splitOn (mem_splitOn_of_mem_parseDirPath hs)) hnil,
      foldl_parseDirPathStep_normal (parseDirPath_normal path)]

/-! ### Walking a path -/

namespace DirectoryTree

variable {σ F : Type}

/-- The cached child `name` of node `id`. -/
def child (t : DirectoryTree σ F) (id : Nat) (name : List Char) : Option Nat :=
  ((t.node? id).bind (·.children)).bind fun children => SortedMap.get? children name

/-- Where `..` leads from `id` in `cd_comp`: to the live father, or nowhere. -/
def parent (t : DirectoryTree σ F) (id : Nat) : Nat :=
  ((t.node? id).bind fun n => t.upgrade n.father).getD id

/-- Every cached child leads back to its parent by `..`. -/
def ParentLinked (t : DirectoryTree σ F) : Prop :=
  ∀ id name c, t.child id name = some c → t.parent c = id

/-- One raw component: `""` and `"."` stay, `".."` climbs, and a name goes
    down to the cached child of that name. -/
def rawStep (t : DirectoryTree σ F) (id : Nat) (s : List Char) : Option Nat :=
  if s = [] ∨ s = ['.'] then some id
  else if s = ['.', '.'] then some (t.parent id)
  else t.child id s

/-- The walk of the raw components, one by one. -/
def walkRaw (t : DirectoryTree σ F) (id : Nat) (comps : List (List Char)) : Option Nat :=
  comps.foldlM t.rawStep id

variable {t : DirectoryTree σ F}

theorem walkRaw_append (id : Nat) (v w : List (List Char)) :
    t.walkRaw id (v ++ w) = (t.walkRaw id v).bind fun y => t.walkRaw y w := by
  simp only [walkRaw, List.foldlM_append]
  rfl

theorem walkRaw_cons (id : Nat) (s : List Char) (w : List (List Char)) :
    t.walkRaw id (s :: w) = (t.rawStep id s).bind fun y => t.walkRaw y w := by
  simp only [walkRaw, List.foldlM_cons]
  rfl

/-- The fold and the walk in step: one more component of the fold walks on
    from where the fold's components led.  A `..` that takes back a name climbs
    back to where the name was taken from. -/
theorem walkRaw_parseDirPathStep (hlinked : t.ParentLinked) {id y z : Nat} {v : List (List Char)}
    {s : List Char} (hv : NormalPath v) (hy : t.walkRaw id v = some y) (hz : t.rawStep y s = some z) :
    t.walkRaw id (parseDirPathStep v s) = some z := by
  have happend : t.walkRaw id (v ++ [s]) = some z := by
    rw [walkRaw_append, hy, Option.bind_some, walkRaw_cons, hz]
    rfl
  unfold parseDirPathStep
  by_cases hskip : s = [] ∨ s = ['.']
  · rw [if_pos hskip]
    simp only [rawStep, if_pos hskip, Option.some.injEq] at hz
    rw [← hz, hy]
  rw [if_neg hskip]
  by_cases hup : s = ['.', '.']
  · rw [if_pos hup]
    split_ifs with hlast
    · exact happend
    · rcases List.eq_nil_or_concat v with rfl | ⟨init, name, rfl⟩
      · simp at hlast
      rw [List.concat_eq_append] at hy hv hlast ⊢
      have hname : name ≠ [] ∧ name ≠ ['.'] := hv.ne_of_mem (by simp)
      have hname_up : name ≠ ['.', '.'] := by simpa using hlast
      rw [walkRaw_append] at hy
      obtain ⟨w, hw, hwy⟩ := Option.bind_eq_some_iff.mp hy
      rw [walkRaw_cons] at hwy
      simp only [rawStep, if_neg (not_or.mpr hname), if_neg hname_up] at hwy
      obtain ⟨c, hc, hcy⟩ := Option.bind_eq_some_iff.mp hwy
      cases hcy
      simp only [rawStep, if_neg hskip, if_pos hup, Option.some.injEq] at hz
      rw [List.dropLast_concat, hw, ← hz, hlinked w name y hc]
  · rw [if_neg hup]
    exact happend

theorem walkRaw_foldl (hlinked : t.ParentLinked) {id : Nat} :
    ∀ (xs : List (List Char)) (v : List (List Char)) (y target : Nat), NormalPath v →
      t.walkRaw id v = some y → t.walkRaw y xs = some target →
      t.walkRaw id (xs.foldl parseDirPathStep v) = some target := by
  intro xs
  induction xs with
  | nil =>
    intro v y target _ hy htarget
    cases htarget
    exact hy
  | cons s xs ih =>
    intro v y target hv hy htarget
    rw [walkRaw_cons] at htarget
    obtain ⟨z, hz, hrest⟩ := Option.bind_eq_some_iff.mp htarget
    exact ih _ z target (hv.step s) (walkRaw_parseDirPathStep hlinked hv hy hz) hrest

theorem walkRaw_parseDirPath (hlinked : t.ParentLinked) {id target : Nat} {path : List Char}
    (h : t.walkRaw id (path.splitOn '/') = some target) : t.walkRaw id (parseDirPath path) = some target :=
  walkRaw_foldl hlinked _ [] id target normalPath_nil rfl h

variable (ops : FileOps σ F)

theorem tryToOpenSubfile_of_child {id c : Nat} {name : List Char} (h : t.child id name = some c) :
    tryToOpenSubfile ops t id name = some (t, .ok c) := by
  obtain ⟨children, hchildren, hget⟩ := Option.bind_eq_some_iff.mp h
  obtain ⟨n, hn, hnc⟩ := Option.bind_eq_some_iff.mp hchildren
  have hcache : cacheAllSubfile ops t id = some (t, .ok ()) := by
    simp [cacheAllSubfile, hn, hnc]
  simp [tryToOpenSubfile, hcache, andThen, hn, hnc, hget]

theorem cdComp_of_walkRaw {v : List (List Char)} {id target : Nat} (hv : ∀ s ∈ v, s ≠ [] ∧ s ≠ ['.'])
    (h : t.walkRaw id v = some target) : cdComp ops t id v = some (t, .ok target) := by
  induction v generalizing id with
  | nil =>
    cases h
    rfl
  | cons s v ih =>
    have hs := hv s List.mem_cons_self
    have hrest : ∀ x ∈ v, x ≠ [] ∧ x ≠ ['.'] := fun x hx => hv x (List.mem_cons_of_mem s hx)
    rw [walkRaw_cons] at h
    obtain ⟨y, hy, hwalk⟩ := Option.bind_eq_some_iff.mp h
    simp only [rawStep, if_neg (not_or.mpr hs)] at hy
    by_cases hup : s = ['.', '.']
    · rw [if_pos hup, Option.some.injEq] at hy
      subst hy
      rw [cdComp, if_pos hup]
      exact ih hrest hwalk
    · rw [if_neg hup] at hy
      rw [cdComp, if_neg hup, tryToOpenSubfile_of_child ops hy]
      exact ih hrest hwalk

/-! ### The path of the working directory leads back to it -/

/-- What `get_cwd` needs of a tree to name a node by a path that leads back to it:
    `ROOT` is nameless and the only node without a live father; a node with a live
    father is that father's cached child under its own name, a proper component
    without `/`; and `depth` falls from a node to its father and stays within the
    number of nodes, so that the climb ends within the fuel of `get_cwd`. -/
structure CwdLinked (t : DirectoryTree σ F) (depth : Nat → Nat) : Prop where
  rootName : ∀ n, t.node? root = some n → n.name = []
  orphan : ∀ id n, t.node? id = some n → t.upgrade n.father = none → id = root
  cached : ∀ id n f, t.node? id = some n → t.upgrade n.father = some f → t.child f n.name = some id
  named : ∀ id n f, t.node? id = some n → t.upgrade n.father = some f →
    ProperComponent n.name ∧ '/' ∉ n.name
  depthLt : ∀ id n f, t.node? id = some n → t.upgrade n.father = some f → depth f < depth id
  depthLe : ∀ id n, t.node? id = some n → depth id ≤ t.nodes.length

theorem node?_of_child {id c : Nat} {name : List Char} (h : t.child id name = some c) :
    ∃ n, t.node? id = some n := by
  obtain ⟨children, hchildren, -⟩ := Option.bind_eq_some_iff.mp h
  obtain ⟨n, hn, -⟩ := Option.bind_eq_some_iff.mp hchildren
  exact ⟨n, hn⟩

/-- The climb of `get_cwd` from `current` collects the names of a walk down from
    `ROOT` to `current`, then `ROOT`'s empty name; the induction is on the fuel,
    which the depth of `current` stays below. -/
theorem getCwdLoop_spec {depth : Nat → Nat} (hl : t.CwdLinked depth) :
    ∀ (fuel current : Nat) (acc : List (List Char)) (n : DirectoryTreeNode F),
      t.node? current = some n → depth current < fuel →
      ∃ names, t.getCwdLoop fuel current acc = some (acc ++ ([] :: names).reverse) ∧
        (∀ s ∈ names, ProperComponent s ∧ '/' ∉ s) ∧ t.walkRaw root names = some current := by
  intro fuel
  induction fuel with
  | zero => exact fun _ _ _ _ hlt => absurd hlt (Nat.not_lt_zero _)
  | succ fuel ih =>
    intro current acc n hn hlt
    cases hup : t.upgrade n.father with
    | none =>
        have hroot := hl.orphan current n hn hup
        subst hroot
        refine ⟨[], ?_, fun _ h => absurd h List.not_mem_nil, rfl⟩
        simp [getCwdLoop, hn, hup, hl.rootName n hn]
    | some par =>
        have hchild := hl.cached current n par hn hup
        obtain ⟨np, hnp⟩ := node?_of_child hchild
        obtain ⟨names, hloop, hnames, hwalk⟩ :=
          ih par (acc ++ [n.name]) np hnp (by have := hl.depthLt current n par hn hup; omega)
        have hname := hl.named current n par hn hup
        refine ⟨names ++ [n.name], ?_, fun s hs => ?_, ?_⟩
        · simp [getCwdLoop, hn, hup, hloop]
        · rcases List.mem_append.mp hs with hs | hs
          · exact hnames s hs
          · rw [List.mem_singleton.mp hs]
            exact hname
        · have hstep : t.rawStep par n.name = some current := by
            rw [rawStep, if_neg (not_or.mpr ⟨hname.1.1, hname.1.2.1⟩), if_neg hname.1.2.2, hchild]
          rw [walkRaw_append, hwalk, Option.bind_some, walkRaw_cons, hstep]
          rfl

/-- `get_cwd` of a node of a linked tree returns a path, and `cd_path` of that
    path, from any node, leads back to the node without reading the disk. -/
theorem cdPath_getCwd {depth : Nat → Nat} (hl : t.CwdLinked depth) {id : Nat}
    {n : DirectoryTreeNode F} (hn : t.node? id = some n) (self : Nat) :
    ∃ path, t.getCwd id = some path ∧ cdPath ops t self path = some (t, .ok id) := by
  obtain ⟨names, hloop, hnames, hwalk⟩ :=
    getCwdLoop_spec hl (t.nodes.length + 1) id [] n hn (Nat.lt_succ_of_le (hl.depthLe id n hn))
  have hcwd : t.getCwd id = some (if ([] :: names).length = 1 then ['/'] else ['/'].intercalate ([] :: names)) := by
    simp [getCwd, hloop]
  refine ⟨_, hcwd, ?_⟩
  rcases names with _ | ⟨s, rest⟩
  · cases hwalk
    rfl
  · have hsplit : (['/'].intercalate ([] :: s :: rest)).splitOn '/' = [] :: s :: rest :=
      List.splitOn_intercalate '/' (fun x hx => by
        rcases List.mem_cons.mp hx with rfl | hx
        · exact List.not_mem_nil
        · exact (hnames x hx).2) (List.cons_ne_nil _ _)
    have hproper : ∀ x ∈ s :: rest, ProperComponent x := fun x hx => (hnames x hx).1
    have hparse : parseDirPath (['/'].intercalate ([] :: s :: rest)) = s :: rest := by
      rw [parseDirPath, hsplit, foldl_parseDirPathStep_of_no_up (fun x hx => ?_), List.nil_append]
      · rw [List.filter_cons_of_neg (by simp), List.filter_eq_self.mpr fun x hx => by
          simp [(hproper x hx).1, (hproper x hx).2.1]]
      · rcases List.mem_cons.mp hx with rfl | hx
        · simp
        · exact (hproper x hx).2.2
    have habs : isAbsolute (['/'].intercalate ([] :: s :: rest)) = true := by
      simp [isAbsolute, List.intercalate]
    rw [if_neg (by simp), cdPath, habs, if_pos rfl, hparse]
    exact cdComp_of_walkRaw ops (fun x hx => ⟨(hproper x hx).1, (hproper x hx).2.1⟩) hwalk

end DirectoryTree

/-- On a tree whose cached children lead back to their parents, `cd_comp` of
    `parse_dir_path(p)` from any node reaches, reading nothing and leaving the
    tree as it is, the node the raw components of `p` reach one by one. -/
theorem cdComp_parseDirPath_of_walkRaw {σ F : Type} (ops : FileOps σ F) {t : DirectoryTree σ F}
    {start target : Nat} {path : List Char} (hlinked : t.ParentLinked)
    (hwalk : t.walkRaw start (path.splitOn '/') = some target) :
    cdComp ops t start (parseDirPath path) = some (t, .ok target) :=
  cdComp_of_walkRaw ops (fun _ hs => ne_of_mem_parseDirPath hs) (walkRaw_parseDirPath hlinked hwalk)

/-- File operations that read nothing. -/
def noFileOps : FileOps Unit Unit :=
  ⟨fun _ _ => true, fun _ _ => false, fun _ _ => none, fun _ _ _ _ => none, fun _ _ _ => none,
    fun _ _ _ => none, fun _ _ _ _ => none, fun _ f _ _ => f⟩

/-- `ROOT` with the directories `a` and `b` cached under it. -/
def abTree : DirectoryTree Unit Unit :=
  ⟨(), [⟨0, [], ⟨0, .fat32⟩, (), none, some [(['a'], 1), (['b'], 2)]⟩,
    ⟨0, ['a'], ⟨0, .fat32⟩, (), some 0, some []⟩, ⟨0, ['b'], ⟨0, .fat32⟩, (), some 0, some []⟩],
    ([], none)⟩

theorem abTree_parentLinked : abTree.ParentLinked := by
  intro id name c h
  rcases id with _ | _ | _ | id
  · simp only [child, abTree, node?, List.getElem?_cons_zero, Option.bind_some, SortedMap.get?] at h
    split_ifs at h <;> cases h <;> rfl
  all_goals simp [child, abTree, node?, SortedMap.get?] at h

example : cdComp noFileOps abTree 0 (parseDirPath ['a', '/', '.', '.', '/', 'b', '/', '.']) =
    some (abTree, .ok 2) :=
  cdComp_parseDirPath_of_walkRaw noFileOps abTree_parentLinked rfl

/-- Depth in `abTree`: `ROOT`, then its two children. -/
def abDepth (id : Nat) : Nat :=
  if id = 0 then 0 else 1

theorem abTree_cwdLinked : abTree.CwdLinked abDepth := by
  have hup : abTree.upgrade (some 0) = some 0 := rfl
  have hfather : ∀ id n f, abTree.node? id = some n → abTree.upgrade n.father = some f →
      f = 0 ∧ (id = 1 ∧ n.name = ['a'] ∨ id = 2 ∧ n.name = ['b']) := by
    intro id n f h hf
    rcases id with _ | _ | _ | id <;> simp [abTree, node?] at h <;> subst h
    · simp [upgrade] at hf
    · exact ⟨(Option.some.inj (hup.symm.trans hf)).symm, .inl ⟨rfl, rfl⟩⟩
    · exact ⟨(Option.some.inj (hup.symm.trans hf)).symm, .inr ⟨rfl, rfl⟩⟩
  refine ⟨fun n h => ?_, fun id n h hnone => ?_, fun id n f h hf => ?_, fun id n f h hf => ?_,
    fun id n f h hf => ?_, fun id n h => ?_⟩
  · simp only [abTree, node?, root, List.getElem?_cons_zero, Option.some.injEq] at h
    rw [← h]
  · rcases id with _ | _ | _ | id <;> simp [abTree, node?] at h <;> subst h
    · rfl
    all_goals exact absurd hnone (by rw [hup]; simp)
  · obtain ⟨rfl, ⟨rfl, hname⟩ | ⟨rfl, hname⟩⟩ := hfather id n f h hf <;> rw [hname] <;> rfl
  · obtain ⟨rfl, ⟨rfl, hname⟩ | ⟨rfl, hname⟩⟩ := hfather id n f h hf <;> rw [hname] <;>
      exact ⟨⟨by decide, by decide, by decide⟩, by decide⟩
  · obtain ⟨rfl, ⟨rfl, -⟩ | ⟨rfl, -⟩⟩ := hfather id n f h hf <;> decide
  · rcases id with _ | _ | _ | id <;> simp [abTree, node?] at h <;> decide

theorem cdPath_getCwd_of_b :
    ∃ path, abTree.getCwd 2 = some path ∧ DirectoryTree.cdPath noFileOps abTree 1 path = some (abTree, .ok 2) :=
  DirectoryTree.cdPath_getCwd noFileOps abTree_cwdLinked rfl 1

example : abTree.getCwd 2 = some ['/', 'b'] := by decide

end OsKernel.Fs
