import OsKernel.Fs.PathWalk

/-! # Resolving a path through directories not yet read

`cd_comp` reads a directory the first time it looks a name up in it:
`cache_all_subfile` asks the file layer for the directory's files and gives
each a new node under it.  A node is then known by the path of names that leads
to it from `ROOT`, not by its place in the tree, which depends on the order of
the reads.  `Mirrors` places the nodes of a tree at such paths, in agreement
with the directories on disk, and every read keeps it so, placing the nodes it
appends.  On a mirroring tree, `cd_comp` of `parse_dir_path(p)` reaches, reading
what it must, the node placed where the raw components of `p`, walked one by one
through the directories, lead.
-/

namespace OsKernel.Fs

open DirectoryTree Fallible

namespace DirectoryTree

variable {σ F : Type}

/-! ## The directories on disk -/

section Directories

variable (listing : F → Option (List (List Char × F))) (rootFile : F)

/-- The files of a directory by name, keyed as `cache_all_subfile` keys its
    map: the last entry of a name wins. -/
def entries (vec : List (List Char × F)) : List (List Char × F) :=
  vec.foldl (fun m e => (SortedMap.insert m e.1 e.2).1) []

/-- The file at a path of names below the root directory. -/
def fileAt (path : List (List Char)) : Option F :=
  path.foldlM (fun f name => (listing f).bind fun vec => SortedMap.get? (entries vec) name) rootFile

/-- One raw component walked through the directories: `""` and `"."` stay,
    `".."` drops the last name and stays at the root, and a name must name a
    file of the directory. -/
def dirStep (path : List (List Char)) (s : List Char) : Option (List (List Char)) :=
  if s = [] ∨ s = ['.'] then some path
  else if s = ['.', '.'] then some path.dropLast
  else (fileAt listing rootFile (path ++ [s])).map fun _ => path ++ [s]

def dirWalk (path : List (List Char)) (comps : List (List Char)) : Option (List (List Char)) :=
  comps.foldlM (dirStep listing rootFile) path

theorem fileAt_append (path : List (List Char)) (name : List Char) :
    fileAt listing rootFile (path ++ [name]) =
      (fileAt listing rootFile path).bind fun f =>
        (listing f).bind fun vec => SortedMap.get? (entries vec) name := by
  simp only [fileAt, List.foldlM_append, List.foldlM_cons, List.foldlM_nil, bind_pure]
  rfl

theorem dirWalk_append (path : List (List Char)) (v w : List (List Char)) :
    dirWalk listing rootFile path (v ++ w) =
      (dirWalk listing rootFile path v).bind fun y => dirWalk listing rootFile y w := by
  simp only [dirWalk, List.foldlM_append]
  rfl

theorem dirWalk_cons (path : List (List Char)) (s : List Char) (w : List (List Char)) :
    dirWalk listing rootFile path (s :: w) =
      (dirStep listing rootFile path s).bind fun y => dirWalk listing rootFile y w := by
  simp only [dirWalk, List.foldlM_cons]
  rfl

theorem dirStep_of_proper {path y : List (List Char)} {s : List Char} (hs : ProperComponent s)
    (h : dirStep listing rootFile path s = some y) :
    y = path ++ [s] ∧ (fileAt listing rootFile (path ++ [s])).isSome := by
  simp only [dirStep, if_neg (not_or.mpr ⟨hs.1, hs.2.1⟩), if_neg hs.2.2] at h
  obtain ⟨f, hf, rfl⟩ := Option.map_eq_some_iff.mp h
  exact ⟨rfl, by rw [hf]; rfl⟩

theorem dirWalk_parseDirPathStep {path y z : List (List Char)} {v : List (List Char)} {s : List Char}
    (hv : NormalPath v) (hy : dirWalk listing rootFile path v = some y)
    (hz : dirStep listing rootFile y s = some z) :
    dirWalk listing rootFile path (parseDirPathStep v s) = some z := by
  have happend : dirWalk listing rootFile path (v ++ [s]) = some z := by
    rw [dirWalk_append, hy, Option.bind_some, dirWalk_cons, hz]
    rfl
  unfold parseDirPathStep
  by_cases hskip : s = [] ∨ s = ['.']
  · rw [if_pos hskip]
    simp only [dirStep, if_pos hskip, Option.some.injEq] at hz
    rw [← hz, hy]
  rw [if_neg hskip]
  by_cases hup : s = ['.', '.']
  · rw [if_pos hup]
    split_ifs with hlast
    · exact happend
    · rcases List.eq_nil_or_concat v with rfl | ⟨init, name, rfl⟩
      · simp at hlast
      rw [List.concat_eq_append] at hy hv hlast ⊢
      have hname : ProperComponent name :=
        ⟨(hv.ne_of_mem (by simp)).1, (hv.ne_of_mem (by simp)).2, by simpa using hlast⟩
      rw [dirWalk_append] at hy
      obtain ⟨w, hw, hwy⟩ := Option.bind_eq_some_iff.mp hy
      rw [dirWalk_cons] at hwy
      obtain ⟨y', hy', hrest⟩ := Option.bind_eq_some_iff.mp hwy
      cases hrest
      obtain ⟨rfl, -⟩ := dirStep_of_proper listing rootFile hname hy'
      simp only [dirStep, if_neg hskip, if_pos hup, Option.some.injEq, List.dropLast_concat] at hz
      rw [List.dropLast_concat, hw, hz]
  · rw [if_neg hup]
    exact happend

theorem dirWalk_foldl {path : List (List Char)} :
    ∀ (xs v : List (List Char)) (y target : List (List Char)), NormalPath v →
      dirWalk listing rootFile path v = some y → dirWalk listing rootFile y xs = some target →
      dirWalk listing rootFile path (xs.foldl parseDirPathStep v) = some target := by
  intro xs
  induction xs with
  | nil =>
    intro v y target _ hy htarget
    cases htarget
    exact hy
  | cons s xs ih =>
    intro v y target hv hy htarget
    rw [dirWalk_cons] at htarget
    obtain ⟨z, hz, hrest⟩ := Option.bind_eq_some_iff.mp htarget
    exact ih _ z target (hv.step s) (dirWalk_parseDirPathStep listing rootFile hv hy hz) hrest

theorem dirWalk_parseDirPath {path target : List (List Char)} {p : List Char}
    (h : dirWalk listing rootFile path (p.splitOn '/') = some target) :
    dirWalk listing rootFile path (parseDirPath p) = some target :=
  dirWalk_foldl listing rootFile _ [] path target normalPath_nil rfl h

end Directories

/-! ## Reaching nodes from `ROOT` -/

section Reach

variable {t t' : DirectoryTree σ F}

theorem reachable_mono_fuel : ∀ {a b x r : Nat}, a ≤ b → x ∈ t.reachable a r → x ∈ t.reachable b r := by
  intro a
  induction a with
  | zero => intro b x r _ h; cases h
  | succ a ih =>
      intro b x r hab h
      obtain ⟨b, rfl⟩ : ∃ b', b = b' + 1 := ⟨b - 1, by omega⟩
      simp only [reachable, List.mem_cons, List.mem_flatMap] at h ⊢
      rcases h with rfl | ⟨c, hc, hx⟩
      · exact .inl rfl
      · exact .inr ⟨c, hc, ih (by omega) hx⟩

theorem reachable_child : ∀ {k x c r : Nat}, x ∈ t.reachable (k + 1) r → c ∈ t.childIds x →
    c ∈ t.reachable (k + 2) r := by
  intro k
  induction k with
  | zero =>
      intro x c r hx hc
      have hxr : x = r := by simpa [reachable] using hx
      subst hxr
      change c ∈ x :: (t.childIds x).flatMap (t.reachable 1)
      exact List.mem_cons_of_mem _ (List.mem_flatMap.mpr ⟨c, hc, List.mem_cons_self⟩)
  | succ k ih =>
      intro x c r hx hc
      change x ∈ r :: (t.childIds r).flatMap (t.reachable (k + 1)) at hx
      change c ∈ r :: (t.childIds r).flatMap (t.reachable (k + 2))
      rcases List.mem_cons.mp hx with rfl | hx
      · exact List.mem_cons_of_mem _ (List.mem_flatMap.mpr ⟨c, hc, List.mem_cons_self⟩)
      · obtain ⟨d, hd, hx⟩ := List.mem_flatMap.mp hx
        exact List.mem_cons_of_mem _ (List.mem_flatMap.mpr ⟨d, hd, ih hx hc⟩)

theorem reachable_of_childIds (hsub : ∀ y, ∀ c ∈ t.childIds y, c ∈ t'.childIds y) :
    ∀ {k x r : Nat}, x ∈ t.reachable k r → x ∈ t'.reachable k r := by
  intro k
  induction k with
  | zero => intro x r h; cases h
  | succ k ih =>
      intro x r h
      simp only [reachable, List.mem_cons, List.mem_flatMap] at h ⊢
      rcases h with rfl | ⟨c, hc, hx⟩
      · exact .inl rfl
      · exact .inr ⟨c, hsub r c hc, ih hx⟩

theorem alive_of_reachable {k x : Nat} (hx : x ∈ t.reachable k root) (hk : k ≤ t.nodes.length) :
    t.alive x = true := by
  rw [alive, List.contains_iff_mem]
  exact reachable_mono_fuel hk hx

end Reach

/-! ## Reading a directory -/

section Load

/-- The node `cache_all_subfile` makes for an entry of directory `dir`. -/
def loadedNode (fsys : FileSystem) (dir : Nat) (e : List Char × F) : DirectoryTreeNode F :=
  ⟨0, e.1, fsys, e.2, some dir, none⟩

/-- The entries read, by name, each with the node it gets when the nodes are
    appended from `n₀` on; the last entry of a name wins. -/
def loadedEntries (n₀ : Nat) (vec : List (List Char × F)) : List (List Char × ((List Char × F) × Nat)) :=
  (vec.zipIdx n₀).foldl (fun m p => (SortedMap.insert m p.1.1 p).1) []

/-- The map of names to nodes that the read caches. -/
def loadedMap (n₀ : Nat) (vec : List (List Char × F)) : List (List Char × Nat) :=
  (loadedEntries n₀ vec).map (Prod.map id Prod.snd)

/-- The tree after `cache_all_subfile` of directory `dir`, whose node is `n`,
    read `vec` and left the file layer in `fs`. -/
def loaded (t : DirectoryTree σ F) (dir : Nat) (n : DirectoryTreeNode F) (vec : List (List Char × F))
    (fs : σ) : DirectoryTree σ F :=
  { t with fs, nodes := t.nodes ++ vec.map (loadedNode n.filesystem dir) }.setChildren dir
    (some (loadedMap t.nodes.length vec))

theorem foldl_load (fsys : FileSystem) (dir : Nat)
    {f : DirectoryTree σ F × List (List Char × Nat) → List Char × F →
      DirectoryTree σ F × List (List Char × Nat)}
    (hf : ∀ t m e, f (t, m) e =
      ({ t with nodes := t.nodes ++ [loadedNode fsys dir e] }, (SortedMap.insert m e.1 t.nodes.length).1)) :
    ∀ (vec : List (List Char × F)) (t : DirectoryTree σ F) (m : List (List Char × Nat)),
      vec.foldl f (t, m) = ({ t with nodes := t.nodes ++ vec.map (loadedNode fsys dir) },
        (vec.zipIdx t.nodes.length).foldl (fun m p => (SortedMap.insert m p.1.1 p.2).1) m) := by
  intro vec
  induction vec with
  | nil => intro t m; simp
  | cons e vec ih =>
      intro t m
      rw [List.foldl_cons, hf, ih, List.zipIdx_cons, List.foldl_cons]
      simp

theorem foldl_eq_loadedMap (n₀ : Nat) (vec : List (List Char × F)) :
    (vec.zipIdx n₀).foldl (fun m p => (SortedMap.insert m p.1.1 p.2).1) [] = loadedMap n₀ vec := by
  have h := SortedMap.foldl_insert_map (fun p : (List Char × F) × Nat => p.1.1) id Prod.snd (vec.zipIdx n₀) []
  rw [List.map_nil] at h
  exact h

theorem entries_eq_loadedEntries (n₀ : Nat) (vec : List (List Char × F)) :
    entries vec = (loadedEntries n₀ vec).map (Prod.map id fun p => p.1.2) := by
  have hzip : entries vec = ((vec.zipIdx n₀).map Prod.fst).foldl
      (fun m e => (SortedMap.insert m e.1 e.2).1) [] := by
    rw [List.zipIdx_map_fst]
    rfl
  have h := SortedMap.foldl_insert_map (fun p : (List Char × F) × Nat => p.1.1) id (fun p => p.1.2)
    (vec.zipIdx n₀) []
  rw [List.map_nil] at h
  rw [hzip, List.foldl_map]
  exact h

theorem get?_loadedEntries {n₀ : Nat} {vec : List (List Char × F)} {name : List Char}
    {x : (List Char × F) × Nat} (h : SortedMap.get? (loadedEntries n₀ vec) name = some x) :
    x.1.1 = name ∧ n₀ ≤ x.2 ∧ vec[x.2 - n₀]? = some x.1 := by
  obtain ⟨hname, hmem⟩ := SortedMap.get?_foldl_insert_self (fun p : (List Char × F) × Nat => p.1.1)
    (fun _ h => h) (fun _ _ h => by simp at h) h
  obtain ⟨hle, hlt, heq⟩ := List.mem_zipIdx (x := x.1) (i := x.2) hmem
  exact ⟨hname, hle, by rw [heq]; exact List.getElem?_eq_getElem (by omega)⟩

theorem get?_loadedMap {n₀ : Nat} {vec : List (List Char × F)} {name : List Char} {c : Nat}
    (h : SortedMap.get? (loadedMap n₀ vec) name = some c) :
    n₀ ≤ c ∧ ∃ e, vec[c - n₀]? = some e ∧ e.1 = name ∧ SortedMap.get? (entries vec) name = some e.2 := by
  rw [loadedMap, SortedMap.get?_map] at h
  obtain ⟨x, hx, rfl⟩ := Option.map_eq_some_iff.mp h
  obtain ⟨hname, hle, hget⟩ := get?_loadedEntries hx
  refine ⟨hle, x.1, hget, hname, ?_⟩
  rw [entries_eq_loadedEntries n₀, SortedMap.get?_map, hx]
  rfl

theorem isSome_get?_loadedMap (n₀ : Nat) (vec : List (List Char × F)) (name : List Char) :
    (SortedMap.get? (loadedMap n₀ vec) name).isSome = (SortedMap.get? (entries vec) name).isSome := by
  rw [loadedMap, SortedMap.get?_map, entries_eq_loadedEntries n₀, SortedMap.get?_map, Option.isSome_map,
    Option.isSome_map]

theorem cacheAllSubfile_of_uncached (ops : FileOps σ F) {t : DirectoryTree σ F} {dir : Nat}
    {n : DirectoryTreeNode F} {vec : List (List Char × F)} {fs : σ} (hn : t.node? dir = some n)
    (hchildren : n.children = none) (hdir : ops.isDir t.fs n.file = true)
    (hopen : ops.openSubfile t.fs n.file = some (fs, .ok vec)) :
    cacheAllSubfile ops t dir = some (t.loaded dir n vec fs, .ok ()) := by
  simp only [cacheAllSubfile, hn, Option.bind_eq_bind, Option.bind_some, hchildren, Option.isSome_none, hdir,
    Bool.not_true, onFs, hopen, Option.map_some, Bool.false_eq_true, if_false, andThen_ok]
  rw [foldl_load n.filesystem dir ?_, foldl_eq_loadedMap]
  · rfl
  · intro _ _ _
    rfl

variable {t : DirectoryTree σ F} {dir : Nat} {n : DirectoryTreeNode F} {vec : List (List Char × F)} {fs : σ}

theorem length_loaded : (t.loaded dir n vec fs).nodes.length = t.nodes.length + vec.length := by
  simp [loaded, setChildren, modifyNode]

theorem node?_loaded_of_lt {x : Nat} (hx : x < t.nodes.length) (hne : x ≠ dir) :
    (t.loaded dir n vec fs).node? x = t.node? x := by
  simp [loaded, setChildren, modifyNode, node?, Ne.symm hne, List.getElem?_append_left hx]

theorem node?_loaded_dir (hn : t.node? dir = some n) :
    (t.loaded dir n vec fs).node? dir = some { n with children := some (loadedMap t.nodes.length vec) } := by
  have hlt : dir < t.nodes.length := (List.getElem?_eq_some_iff.mp hn).1
  simp only [node?] at hn
  simp [loaded, setChildren, modifyNode, node?, List.getElem?_append_left hlt, hn]

theorem node?_loaded_of_le {x : Nat} (hdir : dir < t.nodes.length) (hx : t.nodes.length ≤ x) :
    (t.loaded dir n vec fs).node? x = (vec[x - t.nodes.length]?).map (loadedNode n.filesystem dir) := by
  have hne : dir ≠ x := by omega
  simp [loaded, setChildren, modifyNode, node?, hne, List.getElem?_append_right hx]

theorem childIds_loaded (hn : t.node? dir = some n) (hchildren : n.children = none) :
    ∀ y, ∀ c ∈ t.childIds y, c ∈ (t.loaded dir n vec fs).childIds y := by
  intro y c hc
  have hdir : dir < t.nodes.length := (List.getElem?_eq_some_iff.mp hn).1
  cases hy : t.node? y with
  | none => simp [childIds, hy] at hc
  | some m =>
      by_cases hyd : y = dir
      · subst hyd
        rw [hn] at hy
        cases hy
        simp [childIds, hn, hchildren] at hc
      · have hlt : y < t.nodes.length := (List.getElem?_eq_some_iff.mp hy).1
        simp only [childIds, hy] at hc
        simp only [childIds, node?_loaded_of_lt hlt hyd, hy]
        exact hc

end Load

/-! ## Trees that mirror the directories -/

section Mirror

variable (listing : F → Option (List (List Char × F))) (rootFile : F)

/-- `pathOf` places nodes of the tree at paths of names below `ROOT`, as the
    directories on disk have them: `ROOT` alone is at the empty path and has no
    father; a placed node holds the file at its path, `ROOT` reaches it through
    as many maps as its path has names, and its father, when it has a name, is
    placed at the path without that name; and a cached map of a placed node has
    a name exactly when its directory does, with the child placed under it. -/
structure Mirrors (t : DirectoryTree σ F) (pathOf : Nat → Option (List (List Char))) : Prop where
  rootPlaced : pathOf root = some []
  rootOnly : ∀ x, pathOf x = some [] → x = root
  rootFather : ∀ n, t.node? root = some n → n.father = none
  node : ∀ x p, pathOf x = some p → ∃ n, t.node? x = some n ∧ fileAt listing rootFile p = some n.file ∧
    x ∈ t.reachable (p.length + 1) root ∧ p.length < t.nodes.length
  father : ∀ x q name n, pathOf x = some (q ++ [name]) → t.node? x = some n →
    ∃ f, n.father = some f ∧ pathOf f = some q
  children : ∀ x p n map, pathOf x = some p → t.node? x = some n → n.children = some map → ∀ name,
    ((SortedMap.get? map name).isSome ↔ (fileAt listing rootFile (p ++ [name])).isSome) ∧
      ∀ c, SortedMap.get? map name = some c → pathOf c = some (p ++ [name])

/-- The placement after a read of the directory at `p`: the old nodes where they
    were, and each appended node that the new map names, under its name. -/
def loadedPath (pathOf : Nat → Option (List (List Char))) (n₀ : Nat) (map : List (List Char × Nat))
    (vec : List (List Char × F)) (p : List (List Char)) (x : Nat) : Option (List (List Char)) :=
  if x < n₀ then pathOf x
  else (vec[x - n₀]?).bind fun e => if SortedMap.get? map e.1 = some x then some (p ++ [e.1]) else none

variable {listing rootFile} {t : DirectoryTree σ F} {pathOf : Nat → Option (List (List Char))}

theorem Mirrors.lt_length (hm : t.Mirrors listing rootFile pathOf) {x : Nat} {p : List (List Char)}
    (hx : pathOf x = some p) : x < t.nodes.length := by
  obtain ⟨n, hn, -⟩ := hm.node x p hx
  exact (List.getElem?_eq_some_iff.mp hn).1

theorem Mirrors.parent (hm : t.Mirrors listing rootFile pathOf) {x : Nat} {p : List (List Char)}
    (hx : pathOf x = some p) : pathOf (t.parent x) = some p.dropLast := by
  obtain ⟨n, hn, -⟩ := hm.node x p hx
  rcases List.eq_nil_or_concat p with rfl | ⟨q, name, rfl⟩
  · have hroot := hm.rootOnly x hx
    subst hroot
    simp [DirectoryTree.parent, hn, hm.rootFather n hn, upgrade, hx]
  · rw [List.concat_eq_append] at hx ⊢
    obtain ⟨f, hf, hpf⟩ := hm.father x q name n hx hn
    obtain ⟨_, -, -, hreach, hlen⟩ := hm.node f q hpf
    have halive := alive_of_reachable hreach (by omega)
    simp [DirectoryTree.parent, hn, hf, upgrade, Option.filter_some, halive, hpf]

theorem loadedPath_of_le {n₀ x : Nat} {map : List (List Char × Nat)} {vec : List (List Char × F)}
    {p q : List (List Char)} (hx : n₀ ≤ x) (h : loadedPath pathOf n₀ map vec p x = some q) :
    ∃ e, vec[x - n₀]? = some e ∧ SortedMap.get? map e.1 = some x ∧ q = p ++ [e.1] := by
  rw [loadedPath, if_neg (Nat.not_lt.mpr hx), Option.bind_eq_some_iff] at h
  obtain ⟨e, he, hq⟩ := h
  split_ifs at hq with hmap
  exact ⟨e, he, hmap, (Option.some.inj hq).symm⟩

theorem loadedPath_of_get? {n₀ c : Nat} {vec : List (List Char × F)} {p : List (List Char)}
    {name : List Char} (hc : SortedMap.get? (loadedMap n₀ vec) name = some c) :
    loadedPath pathOf n₀ (loadedMap n₀ vec) vec p c = some (p ++ [name]) := by
  obtain ⟨hle, e, he, hname, -⟩ := get?_loadedMap hc
  rw [loadedPath, if_neg (Nat.not_lt.mpr hle), he, Option.bind_some, hname, if_pos hc]

/-! ### A read keeps the tree mirroring

The read of the directory `dir`, placed at `p`, whose children are not cached. -/

section Read

variable {dir : Nat} {p : List (List Char)} {n : DirectoryTreeNode F} {vec : List (List Char × F)} {fs : σ}

theorem node?_loaded_of_lt_length (hn : t.node? dir = some n) {x : Nat} (hx : x < t.nodes.length) :
    (t.loaded dir n vec fs).node? x =
      (t.node? x).map fun m => if x = dir then { m with children := some (loadedMap t.nodes.length vec) } else m := by
  by_cases hxd : x = dir
  · subst hxd
    rw [node?_loaded_dir hn, hn, Option.map_some, if_pos rfl]
  · rw [node?_loaded_of_lt hx hxd]
    cases t.node? x <;> simp [hxd]

theorem Mirrors.fileAt_loaded (hm : t.Mirrors listing rootFile pathOf) (hdir : pathOf dir = some p)
    (hn : t.node? dir = some n) (hvec : listing n.file = some vec) (name : List Char) :
    fileAt listing rootFile (p ++ [name]) = SortedMap.get? (entries vec) name := by
  obtain ⟨m, hm', hfile, -⟩ := hm.node dir p hdir
  rw [hn, Option.some.injEq] at hm'
  subst hm'
  rw [fileAt_append, hfile, Option.bind_some, hvec, Option.bind_some]

theorem Mirrors.node_loaded_of_lt (hm : t.Mirrors listing rootFile pathOf) (hn : t.node? dir = some n)
    (hchildren : n.children = none) {x : Nat} {q : List (List Char)} (hx : pathOf x = some q) :
    ∃ m, (t.loaded dir n vec fs).node? x = some m ∧ fileAt listing rootFile q = some m.file ∧
      x ∈ (t.loaded dir n vec fs).reachable (q.length + 1) root ∧ q.length < (t.loaded dir n vec fs).nodes.length := by
  obtain ⟨m, hxm, hfile, hreach, hlen⟩ := hm.node x q hx
  refine ⟨_, by rw [node?_loaded_of_lt_length hn (hm.lt_length hx), hxm, Option.map_some], ?_,
    reachable_of_childIds (childIds_loaded hn hchildren) hreach, by rw [length_loaded]; omega⟩
  split <;> exact hfile

theorem Mirrors.node_loaded_of_le (hm : t.Mirrors listing rootFile pathOf) (hdir : pathOf dir = some p)
    (hn : t.node? dir = some n) (hchildren : n.children = none) (hvec : listing n.file = some vec)
    {x : Nat} {e : List Char × F} (hx : t.nodes.length ≤ x) (he : vec[x - t.nodes.length]? = some e)
    (hmap : SortedMap.get? (loadedMap t.nodes.length vec) e.1 = some x) :
    (t.loaded dir n vec fs).node? x = some (loadedNode n.filesystem dir e) ∧
      fileAt listing rootFile (p ++ [e.1]) = some e.2 ∧
      x ∈ (t.loaded dir n vec fs).reachable ((p ++ [e.1]).length + 1) root ∧
      (p ++ [e.1]).length < (t.loaded dir n vec fs).nodes.length := by
  obtain ⟨-, e', he', -, hentry⟩ := get?_loadedMap hmap
  rw [he, Option.some.injEq] at he'
  subst he'
  obtain ⟨-, -, -, hreach, hlen⟩ := hm.node dir p hdir
  have hchild : x ∈ (t.loaded dir n vec fs).childIds dir := by
    simp only [childIds, node?_loaded_dir hn, Option.getD_some]
    exact List.mem_map.mpr ⟨_, SortedMap.mem_of_get?_eq_some hmap, rfl⟩
  have hfit : x - t.nodes.length < vec.length := (List.getElem?_eq_some_iff.mp he).1
  refine ⟨by rw [node?_loaded_of_le (hm.lt_length hdir) hx, he, Option.map_some],
    by rw [hm.fileAt_loaded hdir hn hvec, hentry], ?_, ?_⟩
  · rw [List.length_append, List.length_singleton]
    exact reachable_child (reachable_of_childIds (childIds_loaded hn hchildren) hreach) hchild
  · rw [length_loaded, List.length_append, List.length_singleton]
    omega

theorem Mirrors.load (hm : t.Mirrors listing rootFile pathOf) (hdir : pathOf dir = some p)
    (hn : t.node? dir = some n) (hchildren : n.children = none) (hvec : listing n.file = some vec) :
    (t.loaded dir n vec fs).Mirrors listing rootFile
      (loadedPath pathOf t.nodes.length (loadedMap t.nodes.length vec) vec p) := by
  have hold : ∀ {x}, x < t.nodes.length →
      loadedPath pathOf t.nodes.length (loadedMap t.nodes.length vec) vec p x = pathOf x := fun hx => if_pos hx
  have hroot := hm.lt_length hm.rootPlaced
  refine ⟨by rw [hold hroot]; exact hm.rootPlaced, ?rootOnly, ?rootFather, ?node, ?father, ?children⟩
  case rootOnly =>
    intro x hx
    by_cases hlt : x < t.nodes.length
    · rw [hold hlt] at hx
      exact hm.rootOnly x hx
    · obtain ⟨e, -, -, hq⟩ := loadedPath_of_le (Nat.not_lt.mp hlt) hx
      simp at hq
  case rootFather =>
    intro m hm'
    rw [node?_loaded_of_lt_length hn hroot] at hm'
    obtain ⟨m₀, h₀, rfl⟩ := Option.map_eq_some_iff.mp hm'
    have hfather := hm.rootFather m₀ h₀
    split <;> exact hfather
  case node =>
    intro x q hx
    by_cases hlt : x < t.nodes.length
    · rw [hold hlt] at hx
      exact hm.node_loaded_of_lt hn hchildren hx
    · obtain ⟨e, he, hmap, rfl⟩ := loadedPath_of_le (Nat.not_lt.mp hlt) hx
      obtain ⟨hnode, hfile, hreach, hlen⟩ :=
        hm.node_loaded_of_le hdir hn hchildren hvec (Nat.not_lt.mp hlt) he hmap
      exact ⟨_, hnode, hfile, hreach, hlen⟩
  case father =>
    intro x q name m hx hxm
    by_cases hlt : x < t.nodes.length
    · rw [hold hlt] at hx
      rw [node?_loaded_of_lt_length hn hlt] at hxm
      obtain ⟨m₀, h₀, rfl⟩ := Option.map_eq_some_iff.mp hxm
      obtain ⟨f, hf, hpf⟩ := hm.father x q name m₀ hx h₀
      exact ⟨f, by split <;> exact hf, by rw [hold (hm.lt_length hpf)]; exact hpf⟩
    · obtain ⟨e, he, hmap, hq⟩ := loadedPath_of_le (Nat.not_lt.mp hlt) hx
      obtain ⟨hnode, -⟩ := hm.node_loaded_of_le hdir hn hchildren hvec (Nat.not_lt.mp hlt) he hmap
      rw [hnode, Option.some.injEq] at hxm
      subst hxm
      obtain ⟨rfl, -⟩ := List.append_inj' hq rfl
      exact ⟨dir, rfl, by rw [hold (hm.lt_length hdir)]; exact hdir⟩
  case children =>
    intro x q m map hx hxm hmap name
    by_cases hlt : x < t.nodes.length
    · rw [hold hlt] at hx
      by_cases hxd : x = dir
      · subst hxd
        rw [hdir, Option.some.injEq] at hx
        subst hx
        rw [node?_loaded_dir hn, Option.some.injEq] at hxm
        subst hxm
        cases hmap
        exact ⟨by rw [isSome_get?_loadedMap, hm.fileAt_loaded hdir hn hvec], fun c hc => loadedPath_of_get? hc⟩
      · rw [node?_loaded_of_lt hlt hxd] at hxm
        obtain ⟨hiff, hplace⟩ := hm.children x q m map hx hxm hmap name
        exact ⟨hiff, fun c hc => by rw [hold (hm.lt_length (hplace c hc))]; exact hplace c hc⟩
    · obtain ⟨e, he, hmap', -⟩ := loadedPath_of_le (Nat.not_lt.mp hlt) hx
      obtain ⟨hnode, -⟩ := hm.node_loaded_of_le hdir hn hchildren hvec (Nat.not_lt.mp hlt) he hmap'
      rw [hnode, Option.some.injEq] at hxm
      subst hxm
      cases hmap

end Read

variable (ops : FileOps σ F)

/-- `try_to_open_subfile` of a name that the directory at `p` has, on a
    mirroring tree whose file layer lists every directory as `listing` does,
    gives the node of that name, reading the directory if it is not cached, and
    leaves the tree mirroring. -/
theorem Mirrors.tryToOpenSubfile_of_fileAt
    (hops : ∀ fs f vec, listing f = some vec → ops.isDir fs f = true ∧ ∃ fs', ops.openSubfile fs f = some (fs', .ok vec))
    (hm : t.Mirrors listing rootFile pathOf) {x : Nat} {p : List (List Char)} (hx : pathOf x = some p)
    {name : List Char} (hname : (fileAt listing rootFile (p ++ [name])).isSome) :
    ∃ t' pathOf' c, tryToOpenSubfile ops t x name = some (t', .ok c) ∧ t'.Mirrors listing rootFile pathOf' ∧
      pathOf' c = some (p ++ [name]) := by
  obtain ⟨n, hn, hfile, -⟩ := hm.node x p hx
  cases hchildren : n.children with
  | some map =>
      obtain ⟨hiff, hplace⟩ := hm.children x p n map hx hn hchildren name
      obtain ⟨c, hc⟩ := Option.isSome_iff_exists.mp (hiff.mpr hname)
      have hchild : t.child x name = some c := by simp [child, hn, hchildren, hc]
      exact ⟨t, pathOf, c, tryToOpenSubfile_of_child ops hchild, hm, hplace c hc⟩
  | none =>
      obtain ⟨vec, hvec⟩ : ∃ vec, listing n.file = some vec := by
        rw [fileAt_append, hfile, Option.bind_some] at hname
        exact Option.isSome_iff_exists.mp (Option.isSome_of_isSome_bind hname)
      obtain ⟨hdir, fs, hopen⟩ := hops t.fs n.file vec hvec
      obtain ⟨c, hc⟩ := Option.isSome_iff_exists.mp
        (by rw [isSome_get?_loadedMap, ← hm.fileAt_loaded hx hn hvec]; exact hname :
          (SortedMap.get? (loadedMap t.nodes.length vec) name).isSome)
      refine ⟨t.loaded x n vec fs, _, c, ?_, hm.load hx hn hchildren hvec, loadedPath_of_get? hc⟩
      simp [tryToOpenSubfile, cacheAllSubfile_of_uncached ops hn hchildren hdir hopen, node?_loaded_dir hn, hc]

/-- On components none of which is empty or `.`, `cd_comp` from a placed node
    reaches, reading the directories it must, the node placed where the walk
    through the directories leads; the induction is on the components, with the
    tree and its placement changing at every read. -/
theorem Mirrors.cdComp_of_dirWalk
    (hops : ∀ fs f vec, listing f = some vec → ops.isDir fs f = true ∧ ∃ fs', ops.openSubfile fs f = some (fs', .ok vec)) :
    ∀ {v : List (List Char)} {t : DirectoryTree σ F} {pathOf : Nat → Option (List (List Char))} {x : Nat}
      {p q : List (List Char)}, (∀ s ∈ v, s ≠ [] ∧ s ≠ ['.']) → t.Mirrors listing rootFile pathOf →
      pathOf x = some p → dirWalk listing rootFile p v = some q →
      ∃ t' pathOf' target, cdComp ops t x v = some (t', .ok target) ∧ t'.Mirrors listing rootFile pathOf' ∧
        pathOf' target = some q := by
  intro v
  induction v with
  | nil =>
      intro t pathOf x p q _ hm hx hwalk
      cases hwalk
      exact ⟨t, pathOf, x, rfl, hm, hx⟩
  | cons s v ih =>
      intro t pathOf x p q hv hm hx hwalk
      have hs := hv s List.mem_cons_self
      have hrest : ∀ s' ∈ v, s' ≠ [] ∧ s' ≠ ['.'] := fun s' hs' => hv s' (List.mem_cons_of_mem s hs')
      rw [dirWalk_cons] at hwalk
      obtain ⟨y, hy, hwalk⟩ := Option.bind_eq_some_iff.mp hwalk
      by_cases hup : s = ['.', '.']
      · simp only [dirStep, if_neg (not_or.mpr hs), if_pos hup, Option.some.injEq] at hy
        subst hy
        rw [cdComp, if_pos hup]
        exact ih hrest hm (hm.parent hx) hwalk
      · obtain ⟨rfl, hname⟩ := dirStep_of_proper listing rootFile ⟨hs.1, hs.2, hup⟩ hy
        obtain ⟨t', pathOf', c, htry, hm', hc⟩ := hm.tryToOpenSubfile_of_fileAt ops hops hx hname
        rw [cdComp, if_neg hup, htry, andThen_ok]
        exact ih hrest hm' hc hwalk

end Mirror

end DirectoryTree

/-- `parse_dir_path` has no empty or `.` component, keeps its `..` before every
    name, and is its own result once joined by `/`.  On a tree that mirrors
    directories the file layer lists, `cd_comp` of it from a placed node reaches,
    reading every directory it enters whose children are not cached, a node
    placed where the raw components lead through the directories, and leaves the
    tree mirroring. -/
theorem parseDirPath_resolves {σ F : Type} (path : List Char) :
    (∀ s ∈ parseDirPath path, s ≠ [] ∧ s ≠ ['.']) ∧ NormalPath (parseDirPath path) ∧
      parseDirPath (['/'].intercalate (parseDirPath path)) = parseDirPath path ∧
      ∀ (ops : FileOps σ F) (listing : F → Option (List (List Char × F))) (rootFile : F),
        (∀ fs f vec, listing f = some vec →
          ops.isDir fs f = true ∧ ∃ fs', ops.openSubfile fs f = some (fs', .ok vec)) →
        ∀ (t : DirectoryTree σ F) (pathOf : Nat → Option (List (List Char))) (start : Nat)
          (p q : List (List Char)), t.Mirrors listing rootFile pathOf → pathOf start = some p →
          DirectoryTree.dirWalk listing rootFile p (path.splitOn '/') = some q →
          ∃ t' pathOf' target, cdComp ops t start (parseDirPath path) = some (t', .ok target) ∧
            t'.Mirrors listing rootFile pathOf' ∧ pathOf' target = some q :=
  ⟨fun _ hs => ne_of_mem_parseDirPath hs, parseDirPath_normal path, parseDirPath_intercalate path,
    fun ops listing rootFile hops _ _ _ _ _ hm hx hwalk =>
      DirectoryTree.Mirrors.cdComp_of_dirWalk ops hops (fun _ hs => ne_of_mem_parseDirPath hs) hm hx
        (DirectoryTree.dirWalk_parseDirPath listing rootFile hwalk)⟩

/-- A disk of three directories: `ROOT` (file 0) holds `a` (1) and `b` (2), and
    `a` holds `c` (3). -/
def abcListing : Nat → Option (List (List Char × Nat))
  | 0 => some [(['a'], 1), (['b'], 2)]
  | 1 => some [(['c'], 3)]
  | 2 => some []
  | _ => none

/-- A file layer that opens the directories of `abcListing`. -/
def abcOps : FileOps Unit Nat :=
  ⟨fun _ f => (abcListing f).isSome, fun _ _ => false, fun _ f => (abcListing f).map fun vec => ((), .ok vec),
    fun _ _ _ _ => none, fun _ _ _ => none, fun _ _ _ => none, fun _ _ _ _ => none, fun _ f _ _ => f⟩

/-- `ROOT` alone, its children not read yet. -/
def rootOnlyTree : DirectoryTree Unit Nat :=
  ⟨(), [⟨0, [], ⟨0, .fat32⟩, 0, none, none⟩], ([], none)⟩

/-- `ROOT` at the empty path, and nothing else placed. -/
def rootOnlyPath (x : Nat) : Option (List (List Char)) :=
  if x = 0 then some [] else none

theorem rootOnlyPath_eq_some {x : Nat} {p : List (List Char)} : rootOnlyPath x = some p ↔ x = 0 ∧ p = [] := by
  unfold rootOnlyPath
  split_ifs with hx <;> simp [hx, eq_comm]

theorem rootOnlyTree_mirrors : rootOnlyTree.Mirrors abcListing 0 rootOnlyPath := by
  refine ⟨rfl, fun x hx => (rootOnlyPath_eq_some.mp hx).1, fun n hn => ?_, fun x p hx => ?_,
    fun x q name n hx _ => ?_, fun x p n map hx hn hmap => ?_⟩
  · simp only [rootOnlyTree, DirectoryTree.node?, DirectoryTree.root, List.getElem?_cons_zero,
      Option.some.injEq] at hn
    rw [← hn]
  · obtain ⟨rfl, rfl⟩ := rootOnlyPath_eq_some.mp hx
    exact ⟨_, rfl, rfl, by decide, by decide⟩
  · exact absurd (rootOnlyPath_eq_some.mp hx).2 (by simp)
  · obtain ⟨rfl, rfl⟩ := rootOnlyPath_eq_some.mp hx
    simp only [rootOnlyTree, DirectoryTree.node?, List.getElem?_cons_zero, Option.some.injEq] at hn
    rw [← hn] at hmap
    cases hmap

theorem abcOps_lists (fs : Unit) (f : Nat) (vec : List (List Char × Nat)) (h : abcListing f = some vec) :
    abcOps.isDir fs f = true ∧ ∃ fs', abcOps.openSubfile fs f = some (fs', .ok vec) :=
  ⟨by simp [abcOps, h], (), by simp [abcOps, h]⟩

/-- `a/../b/./../a/c` from `ROOT`, where no directory is read yet: `cd_comp`
    reads `ROOT` and then `a`, and reaches the node placed at `a/c`. -/
theorem parseDirPath_resolves_through_unread_dirs :
    ∃ t' pathOf' target, cdComp abcOps rootOnlyTree 0 (parseDirPath "a/../b/./../a/c".toList) =
      some (t', .ok target) ∧ t'.Mirrors abcListing 0 pathOf' ∧ pathOf' target = some [['a'], ['c']] :=
  (parseDirPath_resolves "a/../b/./../a/c".toList).2.2.2 abcOps abcListing 0 abcOps_lists rootOnlyTree
    rootOnlyPath 0 [] _ rootOnlyTree_mirrors rfl (by decide)

example : (cdComp abcOps rootOnlyTree 0 (parseDirPath "a/../b/./../a/c".toList)).map
    (fun r => (r.1.nodes.length, r.2)) = some (4, .ok 3) := by
  rfl

end OsKernel.Fs
