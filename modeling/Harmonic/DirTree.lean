/-
Harmonic/DirTree.lean

A directory tree below a root, and what a walk of it yields when some of it
cannot be read.

A node is named by the names on the way to it.  Two things can fail during a
walk: a node's directory entry may not be delivered (the directory cannot be
opened, its stream breaks off, the entry's type cannot be told), which hides the
node and all below it; and the call for an entry's metadata may fail.  `Yields`
says what `WalkDir` yields then.  `mem_tree_iff` says which nodes are keys of the
state that `generate_state` makes of such a walk, and `exists_state_iff` when it
makes one.
-/
import Harmonic.Listing
import Harmonic.Walk

namespace Harmonic

open Storage (Failure)

/-! ### Trees -/

/-- What can stand in a directory: a regular file with its content, a directory,
or something else. -/
inductive Node
  | file (content : Bytes)
  | dir
  | other
  deriving DecidableEq

/-- A tree of nodes below a root.  What is above a node is a directory. -/
structure DirTree where
  node : List Name → Option Node
  dir_above : ∀ ns n, node (ns ++ [n]) ≠ none → node ns = some .dir

/-- There is a regular file. -/
def DirTree.IsFile (t : DirTree) (ns : List Name) : Prop :=
  ∃ content, t.node ns = some (.file content)

/-- The metadata of a node that is there: whether it is a regular file. -/
def Node.isFile : Node → Bool
  | .file _ => true
  | _ => false

/-- What fails on a walk: nodes that the read of their directory does not
deliver, and calls for an entry's metadata. -/
structure WalkFailures where
  lost : List Name → Prop
  noMetadata : List Name → Prop

/-- Nothing fails. -/
def WalkFailures.none : WalkFailures := ⟨fun _ => False, fun _ => False⟩

/-- The walk gets to a node: neither it nor a directory above it is lost. -/
def WalkFailures.Reaches (failures : WalkFailures) (ns : List Name) : Prop :=
  ∀ above, above <+: ns → ¬ failures.lost above

/-- What `WalkDir` yields: an entry for each node it gets to, and errors. -/
def Yields (t : DirTree) (failures : WalkFailures) (rootPath : PathBuf)
    (walk : List (Option DirEntry)) : Prop :=
  ∀ e, some e ∈ walk ↔ ∃ ns node, t.node ns = some node ∧ failures.Reaches ns ∧
    e.path = rootPath.below ns ∧
    (failures.noMetadata ns ∧ e.isFile = none ∨
      ¬ failures.noMetadata ns ∧ e.isFile = some node.isFile)

/-! ### Hidden paths -/

theorem ofNames_injective : Function.Injective PathBuf.ofNames := by
  intro ns ns' h
  have hcomps : ns.map Component.normal = ns'.map Component.normal := congrArg PathBuf.comps h
  exact List.map_injective_iff.mpr (fun _ _ => Component.normal.inj) hcomps

/-- A path is hidden for its root, or for the names below it. -/
theorem hasHiddenComponents_below (root : PathBuf) (ns : List Name) :
    hasHiddenComponents (root.below ns) =
      (hasHiddenComponents root || hasHiddenComponents (.ofNames ns)) := by
  rw [below_eq]
  unfold hasHiddenComponents PathBuf.ofNames
  rw [List.any_append, Bool.or_assoc]
  rfl

/-- Some name starts with a dot. -/
def DottedNames (ns : List Name) : Prop := ∃ n ∈ ns, n.1.head? = some dot

instance (ns : List Name) : Decidable (DottedNames ns) :=
  inferInstanceAs (Decidable (∃ n ∈ ns, _))

/-- For names that are UTF-8, hidden means that one starts with a dot. -/
theorem hasHiddenComponents_ofNames {ns : List Name} (h : ∀ n ∈ ns, Utf8.Valid n.1) :
    hasHiddenComponents (.ofNames ns) = true ↔ DottedNames ns := by
  have htext : (PathBuf.ofNames ns).toStr?.isSome = true := by
    rw [toStr?_isSome_iff]
    intro c hc
    obtain ⟨n, hn, rfl⟩ := List.mem_map.mp hc
    exact h n hn
  rw [hasHiddenComponents_iff (Option.isSome_iff_ne_none.mp htext)]
  show (∃ c ∈ (ns.map Component.normal).map Component.asOsStr, c.head? = some dot) ↔ _
  simp only [List.map_map, List.mem_map, exists_exists_and_eq_and]
  rfl

/-! ### What is listed -/

variable {D : Crates} {read : PathBuf → Except Failure Bytes}
  {modified : PathBuf → Except Failure Timestamp} {rootPath : PathBuf}

/-- The loop succeeds exactly if every entry is below the root and can be read. -/
theorem exists_foldlM_addFile_iff {es : List DirEntry} {t : Tree} :
    (∃ t', es.foldlM (addFile D read modified rootPath) t = .ok t') ↔
      ∀ e ∈ es, ∃ p m, getRelativePath e.path rootPath = .ok p ∧
        FileMetadata.new D read modified e.path = .ok m := by
  induction es generalizing t with
  | nil => exact iff_of_true ⟨t, rfl⟩ fun e he => absurd he List.not_mem_nil
  | cons e es ih =>
    rw [List.forall_mem_cons]
    constructor
    · rintro ⟨t', h⟩
      rw [List.foldlM_cons] at h
      obtain ⟨t₁, h₁, h₂⟩ := bind_eq_ok.mp h
      obtain ⟨p, m, hp, hm, -⟩ := addFile_eq_ok.mp h₁
      exact ⟨⟨p, m, hp, hm⟩, ih.mp ⟨t', h₂⟩⟩
    · rintro ⟨⟨p, m, hp, hm⟩, h⟩
      obtain ⟨t', ht'⟩ := (ih (t := t.insert p m)).mpr h
      refine ⟨t', ?_⟩
      rw [List.foldlM_cons]
      exact bind_eq_ok.mpr ⟨_, addFile_eq_ok.mpr ⟨p, m, hp, hm, rfl⟩, ht'⟩

/-- What stands in the tree after the loop stood there before or is what was read
of an entry. -/
theorem getElem?_foldlM_addFile {es : List DirEntry} {t t' : Tree}
    (h : es.foldlM (addFile D read modified rootPath) t = .ok t') {p : PathBuf}
    {m : FileMetadata} (hp : t'[p]? = some m) :
    t[p]? = some m ∨ ∃ e ∈ es, getRelativePath e.path rootPath = .ok p ∧
      FileMetadata.new D read modified e.path = .ok m := by
  induction es generalizing t with
  | nil =>
    obtain rfl := Except.ok.inj h
    exact .inl hp
  | cons e es ih =>
    rw [List.foldlM_cons] at h
    obtain ⟨t₁, h₁, h₂⟩ := bind_eq_ok.mp h
    obtain ⟨q, m', hq, hm', rfl⟩ := addFile_eq_ok.mp h₁
    -- it was put there by a later turn of the loop, or by this one, or stood there before
    rcases ih h₂ with hp | ⟨e', he', hread⟩
    · rw [Std.TreeMap.getElem?_insert] at hp
      split at hp
      · rename_i hqp
        rw [Std.LawfulEqCmp.compare_eq_iff_eq] at hqp
        obtain rfl := Option.some.inj hp
        exact .inr ⟨e, List.mem_cons_self, hqp ▸ hq, hm'⟩
      · exact .inl hp
    · exact .inr ⟨e', List.mem_cons_of_mem _ he', hread⟩

section Listed

variable {t : DirTree} {failures : WalkFailures} {walk : List (Option DirEntry)}
  {ignoreHidden : Bool} {now : Int}

/-- A regular file that `generate_state` is to list: it is not filtered as
hidden. -/
def Tracked (t : DirTree) (rootPath : PathBuf) (ignoreHidden : Bool) (ns : List Name) : Prop :=
  t.IsFile ns ∧ (ignoreHidden = true → hasHiddenComponents (rootPath.below ns) = false)

/-- The walk shows what a node is. -/
def WalkFailures.Shows (failures : WalkFailures) (ns : List Name) : Prop :=
  failures.Reaches ns ∧ ¬ failures.noMetadata ns

theorem shows_none (ns : List Name) : WalkFailures.none.Shows ns :=
  ⟨fun _ _ hlost => hlost, fun hmeta => hmeta⟩

/-- The entries that the loop is for are those of the tracked files that the walk
shows. -/
theorem mem_trackedFiles_iff (hwalk : Yields t failures rootPath walk) {e : DirEntry} :
    e ∈ trackedFiles walk ignoreHidden ↔ ∃ ns, Tracked t rootPath ignoreHidden ns ∧
      failures.Shows ns ∧ e = ⟨rootPath.below ns, some true⟩ := by
  rw [mem_trackedFiles, hwalk e]
  constructor
  · rintro ⟨⟨ns, node, hnode, hreaches, hpath, hmeta⟩, hfile, hhidden⟩
    -- an entry without metadata is taken for no file
    rcases hmeta with ⟨-, hnone⟩ | ⟨hmeta, hsome⟩
    · cases hnone.symm.trans hfile
    · have hisFile : node.isFile = true := Option.some.inj (hsome.symm.trans hfile)
      refine ⟨ns, ⟨?_, ?_⟩, ⟨hreaches, hmeta⟩, ?_⟩
      · rcases node with content | - | -
        · exact ⟨content, hnode⟩
        · cases hisFile
        · cases hisFile
      · rwa [← hpath]
      · rw [← hpath, ← hfile]
  · rintro ⟨ns, ⟨⟨content, hnode⟩, hhidden⟩, ⟨hreaches, hmeta⟩, rfl⟩
    exact ⟨⟨ns, _, hnode, hreaches, rfl, .inr ⟨hmeta, rfl⟩⟩, rfl, hhidden⟩

/-- **The keys of a state** are the tracked files that the walk shows. -/
theorem mem_tree_iff (hwalk : Yields t failures rootPath walk) {state : SyncState}
    (h : generateState D read modified rootPath now walk ignoreHidden = .ok state)
    (ns : List Name) : PathBuf.ofNames ns ∈ state.tree ↔
      Tracked t rootPath ignoreHidden ns ∧ failures.Shows ns := by
  rw [mem_generateState h]
  constructor
  · rintro ⟨e, he, hpath⟩
    obtain ⟨ns', htracked, hshows, rfl⟩ := (mem_trackedFiles_iff hwalk).mp he
    rw [getRelativePath_below] at hpath
    obtain rfl := ofNames_injective (Except.ok.inj hpath)
    exact ⟨htracked, hshows⟩
  · rintro ⟨htracked, hshows⟩
    exact ⟨_, (mem_trackedFiles_iff hwalk).mpr ⟨ns, htracked, hshows, rfl⟩,
      getRelativePath_below rootPath ns⟩

/-- The entry of a key: what was read of a tracked file. -/
theorem exists_of_getElem?_tree (hwalk : Yields t failures rootPath walk) {state : SyncState}
    (h : generateState D read modified rootPath now walk ignoreHidden = .ok state) {p : PathBuf}
    {m : FileMetadata} (hp : state.tree[p]? = some m) :
    ∃ ns, p = .ofNames ns ∧ Tracked t rootPath ignoreHidden ns ∧
      FileMetadata.new D read modified (rootPath.below ns) = .ok m := by
  obtain ⟨tree, htree, h⟩ := bind_eq_ok.mp h
  obtain rfl := Except.ok.inj h
  rcases getElem?_foldlM_addFile htree hp with hempty | ⟨e, he, hpath, hm⟩
  · rw [Std.TreeMap.getElem?_emptyc] at hempty
    cases hempty
  · obtain ⟨ns, htracked, -, rfl⟩ := (mem_trackedFiles_iff hwalk).mp he
    rw [getRelativePath_below] at hpath
    exact ⟨ns, (Except.ok.inj hpath).symm, htracked, hm⟩

/-- **There is a state** exactly if every tracked file that the walk shows can be
read. -/
theorem exists_state_iff (hwalk : Yields t failures rootPath walk) :
    (∃ state, generateState D read modified rootPath now walk ignoreHidden = .ok state) ↔
      ∀ ns, Tracked t rootPath ignoreHidden ns → failures.Shows ns →
        ∃ m, FileMetadata.new D read modified (rootPath.below ns) = .ok m := by
  -- there is a state if the loop succeeds
  have hloop : (∃ state, generateState D read modified rootPath now walk ignoreHidden = .ok state) ↔
      ∃ tree, (trackedFiles walk ignoreHidden).foldlM (addFile D read modified rootPath) ∅ =
        .ok tree := by
    constructor
    · rintro ⟨state, h⟩
      obtain ⟨tree, htree, -⟩ := bind_eq_ok.mp h
      exact ⟨tree, htree⟩
    · rintro ⟨tree, htree⟩
      exact ⟨⟨.ofInt now, tree⟩, bind_eq_ok.mpr ⟨tree, htree, rfl⟩⟩
  rw [hloop, exists_foldlM_addFile_iff]
  constructor
  · intro h ns htracked hshows
    obtain ⟨-, m, -, hm⟩ := h _ ((mem_trackedFiles_iff hwalk).mpr ⟨ns, htracked, hshows, rfl⟩)
    exact ⟨m, hm⟩
  · intro hread e he
    obtain ⟨ns, htracked, hshows, rfl⟩ := (mem_trackedFiles_iff hwalk).mp he
    obtain ⟨m, hm⟩ := hread ns htracked hshows
    exact ⟨_, m, getRelativePath_below rootPath ns, hm⟩

end Listed

/-! ### A tree of one file -/

/-- A root with one file in it. -/
def DirTree.oneFile (n : Name) (content : Bytes) : DirTree where
  node ns := if ns = [] then some .dir else if ns = [n] then some (.file content) else none
  dir_above ns n' h := by
    rcases ns with - | ⟨k, ns⟩
    · rfl
    · simp at h

theorem node_oneFile_eq_some {n : Name} {content : Bytes} {ns : List Name} {node : Node} :
    (DirTree.oneFile n content).node ns = some node ↔
      ns = [] ∧ node = .dir ∨ ns = [n] ∧ node = .file content := by
  unfold DirTree.oneFile
  dsimp only
  split_ifs with h₀ h₁
  · simp [h₀, eq_comm]
  · simp [h₁, eq_comm]
  · simp [h₀, h₁]

/-- What a walk yields that gets to the root: the root, and, unless it is lost, the
file with or without its metadata. -/
theorem yields_oneFile_iff {failures : WalkFailures} {root : PathBuf} {n : Name}
    {content : Bytes} {walk : List (Option DirEntry)} (hroot : failures.Shows []) :
    Yields (.oneFile n content) failures root walk ↔ ∀ e, some e ∈ walk ↔
      e = ⟨root.below [], some false⟩ ∨ ¬ failures.lost [n] ∧
        (failures.noMetadata [n] ∧ e = ⟨root.below [n], none⟩ ∨
          ¬ failures.noMetadata [n] ∧ e = ⟨root.below [n], some true⟩) := by
  -- above the file there is only the root
  have hreaches : failures.Reaches [n] ↔ ¬ failures.lost [n] := by
    constructor
    · intro h
      exact h [n] List.prefix_rfl
    · intro hlost above habove
      rcases List.prefix_cons_iff.mp habove with rfl | ⟨above, rfl, hnil⟩
      · exact hroot.1 [] List.prefix_rfl
      · rwa [List.prefix_nil.mp hnil]
  unfold Yields
  refine forall_congr' fun e => iff_congr Iff.rfl ?_
  have hentry : ∀ path isFile, e = ⟨path, isFile⟩ ↔ e.path = path ∧ e.isFile = isFile := by
    rcases e with ⟨path, isFile⟩
    simp
  simp only [node_oneFile_eq_some, hentry]
  constructor
  · rintro ⟨ns, node, ⟨rfl, rfl⟩ | ⟨rfl, rfl⟩, hns, hpath, hmeta⟩
    · rcases hmeta with ⟨hmeta, -⟩ | ⟨-, hfile⟩
      · exact absurd hmeta hroot.2
      · exact .inl ⟨hpath, hfile⟩
    · refine .inr ⟨hreaches.mp hns, ?_⟩
      rcases hmeta with ⟨hmeta, hfile⟩ | ⟨hmeta, hfile⟩
      · exact .inl ⟨hmeta, hpath, hfile⟩
      · exact .inr ⟨hmeta, hpath, hfile⟩
  · rintro (⟨hpath, hfile⟩ | ⟨hlost, ⟨hmeta, hpath, hfile⟩ | ⟨hmeta, hpath, hfile⟩⟩)
    · exact ⟨[], .dir, .inl ⟨rfl, rfl⟩, hroot.1, hpath, .inr ⟨hroot.2, hfile⟩⟩
    · exact ⟨[n], _, .inr ⟨rfl, rfl⟩, hreaches.mpr hlost, hpath, .inl ⟨hmeta, hfile⟩⟩
    · exact ⟨[n], _, .inr ⟨rfl, rfl⟩, hreaches.mpr hlost, hpath, .inr ⟨hmeta, hfile⟩⟩

/-- A walk that gets to the file, with or without its metadata. -/
def oneFileWalk (root : PathBuf) (n : Name) (isFile : Option Bool) : List (Option DirEntry) :=
  [some ⟨root.below [], some false⟩, some ⟨root.below [n], isFile⟩]

theorem yields_oneFileWalk (root : PathBuf) (n : Name) (content : Bytes) :
    Yields (.oneFile n content) .none root (oneFileWalk root n (some true)) := by
  rw [yields_oneFile_iff (shows_none _)]
  intro e
  simp [oneFileWalk, WalkFailures.none]

end Harmonic
