import OsKernel.Lib.Fallible
import OsKernel.Lib.SortedMap
import OsKernel.Fat32.Layout

/-! # The directory tree

`DirectoryTreeNode` of `fs/directory_tree.rs` and the path operations of
`FileDescriptor` in `fs/mod.rs`.  A node stands for a `File`, with its name, a
weak pointer to its father and, once read, the map of its children by name.
`ROOT` and the children maps hold the only strong pointers to nodes, so a node
lives while `ROOT` reaches it through the maps.  The nodes here are a list
indexed by id, `ROOT` first, and a weak pointer (a father, the node of the
one-entry `PATH_CACHE`) is an id that `upgrade` returns while its node lives.

The file layer is a parameter: its state and the `File` operations the tree
calls.  A result is `Ok` or `Err(errno)` with the state reached, and `none` is
a panic.  The lock order `rename` follows is left out: it changes no result.
-/

namespace OsKernel.Fs

open Fat32 (DiskInodeType)
open Fallible

def enoent : Int := -2
def eacces : Int := -13
def ebusy : Int := -16
def eexist : Int := -17
def exdev : Int := -18
def enotdir : Int := -20
def eisdir : Int := -21
def einval : Int := -22
def etxtbsy : Int := -26

structure OpenFlags where
  bits : Nat
deriving DecidableEq, Repr

namespace OpenFlags

instance : OrOp OpenFlags := ⟨fun a b => ⟨a.bits ||| b.bits⟩⟩

def oWronly : OpenFlags := ⟨0o1⟩
def oRdwr : OpenFlags := ⟨0o2⟩
def oCreat : OpenFlags := ⟨0o100⟩
def oExcl : OpenFlags := ⟨0o200⟩
def oTrunc : OpenFlags := ⟨0o1000⟩
def oDirectory : OpenFlags := ⟨0o200000⟩

/-- `bitflags`' `contains`: every bit of `other` is set. -/
def contains (flags other : OpenFlags) : Bool :=
  flags.bits &&& other.bits == other.bits

end OpenFlags

open OpenFlags

/-- The `File` operations the tree calls, on the state `σ` of the file layer
    and its files `F`. -/
structure FileOps (σ F : Type) where
  isDir : σ → F → Bool
  isFile : σ → F → Bool
  openSubfile : σ → F → Option (σ × Except Int (List (List Char × F)))
  create : σ → F → List Char → DiskInodeType → Option (σ × Except Int F)
  truncateSize : σ → F → Nat → Option (σ × Except Int Unit)
  unlink : σ → F → Bool → Option (σ × Except Int Unit)
  /-- `OSInode::link_child`, which `rename` reaches through a downcast. -/
  linkChild : σ → F → List Char → F → Option (σ × Except Int Unit)
  /-- `File::open`: the file a new descriptor holds. -/
  openFile : σ → F → OpenFlags → Bool → F

/-- `FS`. -/
inductive FsType
  | null
  | fat32
deriving DecidableEq, Repr

structure FileSystem where
  fsId : Nat
  fsType : FsType
deriving DecidableEq, Repr

structure DirectoryTreeNode (F : Type) where
  speUsage : Nat
  name : List Char
  filesystem : FileSystem
  file : F
  father : Option Nat
  children : Option (List (List Char × Nat))

structure DirectoryTree (σ F : Type) where
  fs : σ
  nodes : List (DirectoryTreeNode F)
  /-- `PATH_CACHE`: a path and a weak pointer to the node it opened. -/
  pathCache : List Char × Option Nat

/-- `path.starts_with('/')`. -/
def isAbsolute (path : List Char) : Bool :=
  path.head? == some '/'

/-- One component of the fold of `parse_dir_path`: `""` and `"."` go, and
    `".."` takes back the component before it unless that is `".."` too. -/
def parseDirPathStep (v : List (List Char)) (s : List Char) : List (List Char) :=
  if s = [] ∨ s = ['.'] then v
  else if s = ['.', '.'] then
    if v.getLast?.all (· = ['.', '.']) then v ++ [s] else v.dropLast
  else v ++ [s]

/-- `parse_dir_path`. -/
def parseDirPath (path : List Char) : List (List Char) :=
  (path.splitOn '/').foldl parseDirPathStep []

/-- The paths `open` replaces before it resolves one. -/
def redirectPath (path : List Char) : List Char :=
  let path := if ["/touch", "/rm", "/ls"].map String.toList |>.contains path then
    "/busybox".toList else path
  let path := if ["/lib/ld-musl-riscv64.so.1", "/lib/ld-musl-riscv64-sf.so.1",
      "/lib/ld-linux-riscv64-lp64d.so.1"].map String.toList |>.contains path then
    "/libc.so".toList else path
  if path = "/usr/lib/tls_get_new-dtv_dso.so".toList then "./libtls_get_new-dtv_dso.so".toList
  else path

namespace DirectoryTree

variable {σ F : Type}

/-- `ROOT`. -/
def root : Nat := 0

def node? (t : DirectoryTree σ F) (id : Nat) : Option (DirectoryTreeNode F) :=
  t.nodes[id]?

def modifyNode (t : DirectoryTree σ F) (id : Nat) (f : DirectoryTreeNode F → DirectoryTreeNode F) :
    DirectoryTree σ F :=
  { t with nodes := t.nodes.modify id f }

def setChildren (t : DirectoryTree σ F) (id : Nat) (children : Option (List (List Char × Nat))) :
    DirectoryTree σ F :=
  t.modifyNode id fun n => { n with children }

def childIds (t : DirectoryTree σ F) (id : Nat) : List Nat :=
  match t.node? id with
  | some n => (n.children.getD []).map Prod.snd
  | none => []

/-- The nodes at most `fuel - 1` maps below `id`. -/
def reachable (t : DirectoryTree σ F) : Nat → Nat → List Nat
  | 0, _ => []
  | fuel + 1, id => id :: (t.childIds id).flatMap (reachable t fuel)

/-- A node lives while `ROOT` reaches it; no path of maps repeats a node, so it
    is shorter than the list of nodes. -/
def alive (t : DirectoryTree σ F) (id : Nat) : Bool :=
  (t.reachable t.nodes.length root).contains id

/-- `Weak::upgrade`. -/
def upgrade (t : DirectoryTree σ F) (w : Option Nat) : Option Nat :=
  w.filter t.alive

/-- `DirectoryTreeNode::new`: a node of no special use, children not read. -/
def newNode (t : DirectoryTree σ F) (name : List Char) (filesystem : FileSystem) (file : F)
    (father : Nat) : DirectoryTree σ F × Nat :=
  ({ t with nodes := t.nodes ++ [⟨0, name, filesystem, file, some father, none⟩] }, t.nodes.length)

/-- A call into the file layer. -/
def onFs {α : Type} (t : DirectoryTree σ F) (f : σ → Option (σ × Except Int α)) :
    Option (DirectoryTree σ F × Except Int α) :=
  (f t.fs).map fun (fs, r) => ({ t with fs }, r)

/-- The loop of `get_cwd`: the names up the live fathers, the node's first. -/
def getCwdLoop (t : DirectoryTree σ F) : Nat → Nat → List (List Char) → Option (List (List Char))
  | 0, _, _ => none
  | fuel + 1, current, pathv => do
      let node ← t.node? current
      match t.upgrade node.father with
      | some par => getCwdLoop t fuel par (pathv ++ [node.name])
      | none => pure (pathv ++ [node.name])

/-- `get_cwd`: the names from `ROOT` down, joined by `/`; `ROOT`'s is empty. -/
def getCwd (t : DirectoryTree σ F) (id : Nat) : Option (List Char) := do
  let pathv := (← getCwdLoop t (t.nodes.length + 1) id []).reverse
  pure (if pathv.length = 1 then ['/'] else ['/'].intercalate pathv)

variable (ops : FileOps σ F)

/-- `cache_all_subfile`: the first call on a directory reads its files and
    gives each a node under it. -/
def cacheAllSubfile (t : DirectoryTree σ F) (id : Nat) : Option (DirectoryTree σ F × Except Int Unit) := do
  let node ← t.node? id
  if node.children.isSome then pure (t, .ok ())
  else if !ops.isDir t.fs node.file then pure (t, .error enotdir)
  else
    andThen (t.onFs fun fs => ops.openSubfile fs node.file) fun t vec =>
      let (t, map) := vec.foldl (fun (acc : DirectoryTree σ F × List (List Char × Nat)) entry =>
        let (t, value) := acc.1.newNode entry.1 node.filesystem entry.2 id
        (t, (SortedMap.insert acc.2 entry.1 value).1)) (t, [])
      pure (t.setChildren id (some map), .ok ())

/-- `try_to_open_subfile`. -/
def tryToOpenSubfile (t : DirectoryTree σ F) (id : Nat) (name : List Char) :
    Option (DirectoryTree σ F × Except Int Nat) :=
  andThen (cacheAllSubfile ops t id) fun t () => do
    let children ← (t.node? id).bind (·.children)
    pure (t, match SortedMap.get? children name with
      | some child => .ok child
      | none => .error enoent)

/-- `cd_comp`: `..` goes to a live father, or stays. -/
def cdComp (t : DirectoryTree σ F) (current : Nat) :
    List (List Char) → Option (DirectoryTree σ F × Except Int Nat)
  | [] => pure (t, .ok current)
  | component :: components =>
      if component = ['.', '.'] then
        cdComp t (((t.node? current).bind fun n => t.upgrade n.father).getD current) components
      else
        andThen (tryToOpenSubfile ops t current component) fun t child =>
          cdComp t child components

/-- `cd_path`. -/
def cdPath (t : DirectoryTree σ F) (self : Nat) (path : List Char) :
    Option (DirectoryTree σ F × Except Int Nat) :=
  cdComp ops t (if isAbsolute path then root else self) (parseDirPath path)

/-- `create` of the last component and its node, as `open` and `mkdir` do it
    after `try_to_open_subfile` has read the map. -/
def createChild (t : DirectoryTree σ F) (inode : Nat) (lastComp : List Char)
    (fileType : DiskInodeType) : Option (DirectoryTree σ F × Except Int Nat) := do
  let node ← t.node? inode
  andThen (t.onFs fun fs => ops.create fs node.file lastComp fileType) fun t newFile => do
    let (t, value) := t.newNode lastComp node.filesystem newFile inode
    let children ← (t.node? inode).bind (·.children)
    pure (t.setChildren inode (some (SortedMap.insert children lastComp value).1), .ok value)

/-- The node `open` finds when `PATH_CACHE` does not give it: `cd_comp` to the
    parent, then the last component, which `O_CREAT` creates as a file. -/
def openResolve (t : DirectoryTree σ F) (start : Nat) (path : List Char) (flags : OpenFlags) :
    Option (DirectoryTree σ F × Except Int Nat) :=
  let components := parseDirPath path
  andThen (cdComp ops t start components.dropLast) fun t inode =>
    match components.getLast? with
    | none => pure (t, .ok inode)
    | some lastComp => do
        let (t, r) ← tryToOpenSubfile ops t inode lastComp
        match r with
        | .ok child =>
            if flags.contains (oCreat ||| oExcl) then pure (t, .error eexist) else pure (t, .ok child)
        | .error errno =>
            if errno ≠ enoent then pure (t, .error errno)
            else if !flags.contains oCreat then pure (t, .error enoent)
            else createChild ops t inode lastComp .file

/-- The node `PATH_CACHE` gives an absolute path, while it lives. -/
def cacheHit (t : DirectoryTree σ F) (path : List Char) : Option Nat :=
  if isAbsolute path ∧ path = t.pathCache.1 then t.upgrade t.pathCache.2 else none

/-- What `open` does with the node it found: truncate, check the flags, count a
    special use, remember an absolute path, and open the file, which points to
    the node. -/
def openFound (t : DirectoryTree σ F) (inode : Nat) (path : List Char) (flags : OpenFlags)
    (specialUse : Bool) : Option (DirectoryTree σ F × Except Int (F × Nat)) := do
  let node ← t.node? inode
  let truncated := if flags.contains oTrunc then t.onFs fun fs => ops.truncateSize fs node.file 0
    else pure (t, .ok ())
  andThen truncated fun t () =>
    let writes := flags.contains oWronly || flags.contains oRdwr
    if ops.isFile t.fs node.file && 0 < node.speUsage && writes then pure (t, .error etxtbsy)
    else if ops.isDir t.fs node.file && writes then pure (t, .error eisdir)
    else if !ops.isDir t.fs node.file && flags.contains oDirectory then pure (t, .error enotdir)
    else
      let t := if specialUse then t.modifyNode inode fun n => { n with speUsage := n.speUsage + 1 }
        else t
      let t := if isAbsolute path && path ≠ t.pathCache.1 then { t with pathCache := (path, some inode) }
        else t
      pure (t, .ok (ops.openFile t.fs node.file flags specialUse, inode))

/-- `DirectoryTreeNode::open`. -/
def openPath (t : DirectoryTree σ F) (self : Nat) (path : List Char) (flags : OpenFlags)
    (specialUse : Bool) : Option (DirectoryTree σ F × Except Int (F × Nat)) :=
  let path := redirectPath path
  match t.cacheHit path with
  | some inode => openFound ops t inode path flags specialUse
  | none =>
      andThen (openResolve ops t (if isAbsolute path then root else self) path flags) fun t inode =>
        openFound ops t inode path flags specialUse

/-- `mkdir`. -/
def mkdir (t : DirectoryTree σ F) (self : Nat) (path : List Char) :
    Option (DirectoryTree σ F × Except Int Unit) :=
  let components := parseDirPath path
  andThen (cdComp ops t (if isAbsolute path then root else self) components.dropLast) fun t inode =>
    match components.getLast? with
    | none => pure (t, .error eexist)
    | some lastComp => do
        let (t, r) ← tryToOpenSubfile ops t inode lastComp
        match r with
        | .ok _ => pure (t, .error eexist)
        | .error errno =>
            if errno ≠ enoent then pure (t, .error errno)
            else andThen (createChild ops t inode lastComp .directory) fun t _ => pure (t, .ok ())

/-- `delete`: the node's file is unlinked and its entry leaves the father's map. -/
def delete (t : DirectoryTree σ F) (self : Nat) (path : List Char) (deleteDirectory : Bool) :
    Option (DirectoryTree σ F × Except Int Unit) :=
  if (path.splitOn '/').getLast?.all (· = ['.']) then pure (t, .error einval)
  else do
    let components := parseDirPath path
    let lastComp ← components.getLast?
    andThen (cdComp ops t (if isAbsolute path then root else self) components) fun t inode => do
      let node ← t.node? inode
      if 0 < node.speUsage then pure (t, .error ebusy)
      else if !deleteDirectory && ops.isDir t.fs node.file then pure (t, .error eisdir)
      else if deleteDirectory && !ops.isDir t.fs node.file then pure (t, .error enotdir)
      else
        match t.upgrade node.father with
        | none => pure (t, .error eacces)
        | some parInode =>
            andThen (t.onFs fun fs => ops.unlink fs node.file true) fun t () => do
              let children ← (t.node? parInode).bind (·.children)
              pure (t.setChildren parInode (some (SortedMap.remove children lastComp).1), .ok ())

/-- The part of `rename` about an existing `new`: the checks, then
    `new_par_inode.file.unlink(true)`, and the entry of `new` leaves the map of
    its parent. -/
def renameOverTarget (t : DirectoryTree σ F) (oldInode newParInode : Nat)
    (newLastComp : List Char) : Option (DirectoryTree σ F × Except Int Unit) := do
  let (t, r) ← tryToOpenSubfile ops t newParInode newLastComp
  match r with
  | .error errno => if errno = enoent then pure (t, .ok ()) else pure (t, .error errno)
  | .ok newInode => do
      let oldNode ← t.node? oldInode
      let newNode ← t.node? newInode
      let newParNode ← t.node? newParInode
      if ops.isDir t.fs newNode.file && !ops.isDir t.fs oldNode.file then pure (t, .error eisdir)
      else if ops.isDir t.fs oldNode.file && !ops.isDir t.fs newNode.file then
        pure (t, .error enotdir)
      else if 0 < newNode.speUsage then pure (t, .error ebusy)
      else
        andThen (t.onFs fun fs => ops.unlink fs newParNode.file true) fun t () => do
          let children ← (t.node? newParInode).bind (·.children)
          pure (t.setChildren newParInode (some (SortedMap.remove children newLastComp).1), .ok ())

/-- The move of `rename`: the entry of `old` leaves its map, its file is
    unlinked and linked under the new parent by the old last component, and the
    node goes into the new parent's map under the new one. -/
def renameMove (t : DirectoryTree σ F) (oldParInode oldInode newParInode : Nat)
    (oldLastComp newLastComp : List Char) : Option (DirectoryTree σ F × Except Int Unit) := do
  let oldChildren ← (t.node? oldParInode).bind (·.children)
  let (oldChildren, value) := SortedMap.remove oldChildren oldLastComp
  let value ← value
  let t := t.setChildren oldParInode (some oldChildren)
  let oldNode ← t.node? oldInode
  let newParNode ← t.node? newParInode
  andThen (t.onFs fun fs => ops.unlink fs oldNode.file false) fun t () =>
    let linked := match oldNode.filesystem.fsType with
      | .fat32 => t.onFs fun fs => ops.linkChild fs newParNode.file oldLastComp oldNode.file
      | .null => pure (t, .error eacces)
    andThen linked fun t () => do
      let t := t.modifyNode value fun n => { n with father := some newParInode }
      let newChildren ← (t.node? newParInode).bind (·.children)
      pure (t.setChildren newParInode (some (SortedMap.insert newChildren newLastComp value).1),
        .ok ())

/-- `DirectoryTreeNode::rename` of two absolute paths. -/
def rename (t : DirectoryTree σ F) (oldPath newPath : List Char) :
    Option (DirectoryTree σ F × Except Int Unit) := do
  if !isAbsolute oldPath || !isAbsolute newPath then none
  let oldComps := parseDirPath oldPath
  let newComps := parseDirPath newPath
  if oldComps = newComps then pure (t, .ok ())
  else if oldComps.isPrefixOf newComps then pure (t, .error einval)
  else do
    let oldLastComp ← oldComps.getLast?
    let newLastComp ← newComps.getLast?
    andThen (cdComp ops t root oldComps.dropLast) fun t oldParInode =>
      andThen (cdComp ops t root newComps.dropLast) fun t newParInode =>
        andThen (tryToOpenSubfile ops t oldParInode oldLastComp) fun t oldInode => do
          let oldNode ← t.node? oldInode
          let newParNode ← t.node? newParInode
          if 0 < oldNode.speUsage then pure (t, .error ebusy)
          else if oldNode.filesystem.fsId ≠ newParNode.filesystem.fsId then pure (t, .error exdev)
          else
            andThen (renameOverTarget ops t oldInode newParInode newLastComp) fun t () =>
              renameMove ops t oldParInode oldInode newParInode oldLastComp newLastComp

end DirectoryTree

/-- A `FileDescriptor` as its path operations see it: its file, and the node
    `get_dirtree_node` upgrades. -/
structure FileDescriptor (F : Type) where
  file : F
  dirtreeNode : Option Nat

namespace FileDescriptor

variable {σ F : Type} (ops : FileOps σ F)

/-- `FileDescriptor::open`. -/
def openPath (t : DirectoryTree σ F) (fd : FileDescriptor F) (path : List Char)
    (flags : OpenFlags) (specialUse : Bool) :
    Option (DirectoryTree σ F × Except Int (FileDescriptor F)) :=
  if path = [] then pure (t, .ok fd)
  else if ops.isFile t.fs fd.file && !isAbsolute path then pure (t, .error enotdir)
  else
    match t.upgrade fd.dirtreeNode with
    | none => pure (t, .error enoent)
    | some inode =>
        andThen (t.openPath ops inode path flags specialUse) fun t opened =>
          pure (t, .ok ⟨opened.1, some opened.2⟩)

/-- `FileDescriptor::rename`: each path is joined to the working directory of
    its descriptor by a `/`. -/
def rename (t : DirectoryTree σ F) (oldFd : FileDescriptor F) (oldPath : List Char)
    (newFd : FileDescriptor F) (newPath : List Char) : Option (DirectoryTree σ F × Except Int Unit) :=
  if ops.isFile t.fs oldFd.file && !isAbsolute oldPath then pure (t, .error enotdir)
  else if ops.isFile t.fs newFd.file && !isAbsolute newPath then pure (t, .error enotdir)
  else
    match t.upgrade oldFd.dirtreeNode, t.upgrade newFd.dirtreeNode with
    | none, _ => pure (t, .error enoent)
    | some _, none => pure (t, .error enoent)
    | some oldInode, some newInode => do
        let oldAbsPath := ['/'].intercalate [← t.getCwd oldInode, oldPath]
        let newAbsPath := ['/'].intercalate [← t.getCwd newInode, newPath]
        t.rename ops oldAbsPath newAbsPath

end FileDescriptor

/-! ## `open` from `PATH_CACHE`

What `open` does with the node it found reads only `O_TRUNC`, `O_WRONLY`,
`O_RDWR` and `O_DIRECTORY`, and the node of a path in `PATH_CACHE` is found
without resolving the path, so from the cache `O_EXCL` changes nothing, where
the resolution gives `EEXIST` for a path that exists. -/

theorem OpenFlags.contains_or_of_disjoint {flags extra other : OpenFlags}
    (h : extra.bits &&& other.bits = 0) : (flags ||| extra).contains other = flags.contains other := by
  show ((flags.bits ||| extra.bits) &&& other.bits == other.bits) = (flags.bits &&& other.bits == other.bits)
  rw [Nat.and_or_distrib_right, h, Nat.or_zero]

namespace DirectoryTree

variable {σ F : Type} (ops : FileOps σ F)

theorem outcome_openFound_congr (t : DirectoryTree σ F) (inode : Nat) (path : List Char)
    {flags flags' : OpenFlags} (specialUse : Bool)
    (htrunc : flags'.contains oTrunc = flags.contains oTrunc)
    (hwronly : flags'.contains oWronly = flags.contains oWronly)
    (hrdwr : flags'.contains oRdwr = flags.contains oRdwr)
    (hdir : flags'.contains oDirectory = flags.contains oDirectory) :
    outcome (t.openFound ops inode path flags' specialUse) =
      outcome (t.openFound ops inode path flags specialUse) := by
  unfold openFound
  rw [htrunc, hwronly, hrdwr, hdir]
  cases t.node? inode with
  | none => rfl
  | some node =>
      simp only [Option.bind_eq_bind, Option.bind_some]
      cases (if flags.contains oTrunc = true then t.onFs fun fs => ops.truncateSize fs node.file 0
        else pure (t, .ok ())) with
      | none => rfl
      | some r =>
          obtain ⟨t', r⟩ := r
          cases r with
          | error e => rfl
          | ok u => simp only [andThen_ok]; split_ifs <;> rfl

theorem openPath_or_excl_of_cacheHit {t : DirectoryTree σ F} {self : Nat} {path : List Char}
    {inode : Nat} (flags : OpenFlags) (specialUse : Bool)
    (hhit : t.cacheHit (redirectPath path) = some inode) :
    outcome (t.openPath ops self path (flags ||| oExcl) specialUse) =
      outcome (t.openPath ops self path flags specialUse) := by
  simp only [openPath, hhit]
  exact outcome_openFound_congr ops t inode _ specialUse
    (contains_or_of_disjoint (by decide)) (contains_or_of_disjoint (by decide))
    (contains_or_of_disjoint (by decide)) (contains_or_of_disjoint (by decide))

theorem openResolve_eq_eexist {t t₁ t₂ : DirectoryTree σ F} {start : Nat} {path : List Char}
    {flags : OpenFlags} {inode child : Nat} {lastComp : List Char}
    (hcd : t.cdComp ops start (parseDirPath path).dropLast = some (t₁, .ok inode))
    (hlast : (parseDirPath path).getLast? = some lastComp)
    (hfound : t₁.tryToOpenSubfile ops inode lastComp = some (t₂, .ok child))
    (hexcl : flags.contains (oCreat ||| oExcl) = true) :
    t.openResolve ops start path flags = some (t₂, .error eexist) := by
  simp only [openResolve, hcd, andThen_ok, hlast, hfound, hexcl]
  rfl

theorem renameOverTarget_unlinks_parent {t t₁ : DirectoryTree σ F}
    {oldInode newParInode newInode : Nat} {newLastComp : List Char}
    {oldNode newNode newParNode : DirectoryTreeNode F}
    (hfound : t.tryToOpenSubfile ops newParInode newLastComp = some (t₁, .ok newInode))
    (hold : t₁.node? oldInode = some oldNode) (hnew : t₁.node? newInode = some newNode)
    (hpar : t₁.node? newParInode = some newParNode)
    (htype : ops.isDir t₁.fs newNode.file = ops.isDir t₁.fs oldNode.file)
    (hidle : newNode.speUsage = 0) {fs' : σ} {errno : Int}
    (hunlink : ops.unlink t₁.fs newParNode.file true = some (fs', .error errno)) :
    t.renameOverTarget ops oldInode newParInode newLastComp = some ({ t₁ with fs := fs' }, .error errno) := by
  simp only [renameOverTarget, hfound, Option.bind_eq_bind, Option.bind_some, hold, hnew, hpar, htype,
    hidle, Nat.lt_irrefl]
  cases ops.isDir t₁.fs oldNode.file <;> simp [onFs, hunlink]

end DirectoryTree

/-! ## The components `parse_dir_path` gives

The fold keeps a run of `..` followed by proper components, so no component is
empty: the last one `rename` pops is a name, and `..` only climbs above the
start.  A path joined after another by `/`, with no `..` of its own, adds its
components after the other's: `FileDescriptor::rename` reads an absolute path
below the working directory. -/

/-- A component the fold keeps as it is. -/
def ProperComponent (s : List Char) : Prop :=
  s ≠ [] ∧ s ≠ ['.'] ∧ s ≠ ['.', '.']

def NormalPath (v : List (List Char)) : Prop :=
  ∃ k rest, v = List.replicate k ['.', '.'] ++ rest ∧ ∀ s ∈ rest, ProperComponent s

theorem normalPath_nil : NormalPath [] :=
  ⟨0, [], rfl, fun _ h => absurd h List.not_mem_nil⟩

theorem NormalPath.step {v : List (List Char)} (hv : NormalPath v) (s : List Char) :
    NormalPath (parseDirPathStep v s) := by
  obtain ⟨k, rest, rfl, hrest⟩ := hv
  unfold parseDirPathStep
  by_cases hskip : s = [] ∨ s = ['.']
  · rw [if_pos hskip]
    exact ⟨k, rest, rfl, hrest⟩
  rw [if_neg hskip]
  by_cases hup : s = ['.', '.']
  · rw [if_pos hup]
    rcases List.eq_nil_or_concat rest with rfl | ⟨init, last, rfl⟩
    · have hall : ((List.replicate k ['.', '.'] ++ []).getLast?).all (· = ['.', '.']) = true := by
        cases k <;> simp [List.getLast?_replicate]
      rw [if_pos hall, hup, List.append_nil, ← List.replicate_succ']
      exact ⟨k + 1, [], by rw [List.append_nil], fun _ h => absurd h List.not_mem_nil⟩
    · rw [List.concat_eq_append] at hrest ⊢
      have hlast : ProperComponent last := hrest last (by simp)
      have hnot : ¬ ((List.replicate k ['.', '.'] ++ (init ++ [last])).getLast?).all
          (· = ['.', '.']) = true := by
        simp [List.getLast?_append, hlast.2.2]
      rw [if_neg hnot, ← List.append_assoc, List.dropLast_concat]
      exact ⟨k, init, rfl, fun x hx => hrest x (List.mem_append_left _ hx)⟩
  · rw [if_neg hup, List.append_assoc]
    refine ⟨k, rest ++ [s], rfl, fun x hx => ?_⟩
    rcases List.mem_append.mp hx with hx | hx
    · exact hrest x hx
    · rw [List.mem_singleton.mp hx]
      exact ⟨fun h => hskip (Or.inl h), fun h => hskip (Or.inr h), hup⟩

theorem parseDirPath_normal (path : List Char) : NormalPath (parseDirPath path) := by
  suffices h : ∀ (xs : List (List Char)) v, NormalPath v → NormalPath (xs.foldl parseDirPathStep v)
    from h _ _ normalPath_nil
  intro xs
  induction xs with
  | nil => exact fun _ hv => hv
  | cons s xs ih => exact fun v hv => ih _ (hv.step s)

theorem ne_of_mem_parseDirPath {path s : List Char} (h : s ∈ parseDirPath path) :
    s ≠ [] ∧ s ≠ ['.'] := by
  obtain ⟨k, rest, heq, hrest⟩ := parseDirPath_normal path
  rw [heq] at h
  rcases List.mem_append.mp h with h | h
  · rw [List.eq_of_mem_replicate h]
    exact ⟨by simp, by simp⟩
  · exact ⟨(hrest s h).1, (hrest s h).2.1⟩

theorem foldl_parseDirPathStep_of_no_up {xs : List (List Char)} (h : ∀ s ∈ xs, s ≠ ['.', '.'])
    (v : List (List Char)) :
    xs.foldl parseDirPathStep v = v ++ xs.filter fun s => !decide (s = [] ∨ s = ['.']) := by
  induction xs generalizing v with
  | nil => simp
  | cons s xs ih =>
      rw [List.foldl_cons, ih (fun x hx => h x (List.mem_cons_of_mem s hx))]
      have hup : s ≠ ['.', '.'] := h s List.mem_cons_self
      by_cases hskip : s = [] ∨ s = ['.']
      · rcases hskip with rfl | rfl <;> simp [parseDirPathStep]
      · rw [not_or] at hskip
        simp [parseDirPathStep, hskip.1, hskip.2, hup]

theorem FileDescriptor.rename_eq {σ F : Type} (ops : FileOps σ F) {t : DirectoryTree σ F}
    {oldFd newFd : FileDescriptor F} {oldPath newPath oldCwd newCwd : List Char}
    {oldInode newInode : Nat}
    (hold : (ops.isFile t.fs oldFd.file && !isAbsolute oldPath) = false)
    (hnew : (ops.isFile t.fs newFd.file && !isAbsolute newPath) = false)
    (holdNode : t.upgrade oldFd.dirtreeNode = some oldInode)
    (hnewNode : t.upgrade newFd.dirtreeNode = some newInode)
    (holdCwd : t.getCwd oldInode = some oldCwd) (hnewCwd : t.getCwd newInode = some newCwd) :
    FileDescriptor.rename ops t oldFd oldPath newFd newPath =
      t.rename ops (['/'].intercalate [oldCwd, oldPath]) (['/'].intercalate [newCwd, newPath]) := by
  simp only [FileDescriptor.rename, hold, hnew, holdNode, hnewNode, holdCwd, hnewCwd]
  rfl

theorem parseDirPath_join (c : List Char) {p : List Char} (hp : ∀ s ∈ p.splitOn '/', s ≠ ['.', '.']) :
    parseDirPath (['/'].intercalate [c, p]) = parseDirPath c ++ parseDirPath p := by
  have hjoin : ['/'].intercalate [c, p] = c ++ '/' :: p := by simp
  rw [parseDirPath, parseDirPath, parseDirPath, hjoin, List.splitOn_append_cons_self,
    List.foldl_append, foldl_parseDirPathStep_of_no_up hp, foldl_parseDirPathStep_of_no_up hp,
    List.nil_append]

end OsKernel.Fs
