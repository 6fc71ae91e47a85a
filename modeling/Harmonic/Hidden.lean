/-
Harmonic/Hidden.lean

Hidden files, and where the tree stands.

`generate_state` filters the walked paths, root included, and `compare_states`
the relative ones.  The two filters agree below a root without a component that
starts with a dot.  Below any other root (`.` and `..` are such components) the
first one takes everything, and the state is empty.

`contents_iff` gives the map of paths and hashes in terms of the tree and of that
one bit of the root.
-/
import Harmonic.DirTree
import Harmonic.Replicas
import Harmonic.RoundTrip

namespace Harmonic

open Storage (Failure)

/-! ### A tree at a root -/

/-- The names are UTF-8. -/
def DirTree.Utf8Names (t : DirTree) : Prop :=
  ∀ ns, t.node ns ≠ none → ∀ n ∈ ns, Utf8.Valid n.1

/-- A regular file of which no component starts with a dot. -/
def DirTree.Visible (t : DirTree) (ns : List Name) : Prop := t.IsFile ns ∧ ¬ DottedNames ns

/-- The tree stands below a root, and all of it can be read. -/
structure StandsAt (t : DirTree) (read : PathBuf → Except Failure Bytes)
    (modified : PathBuf → Except Failure Timestamp) (root : PathBuf)
    (walk : List (Option DirEntry)) : Prop where
  walk : Yields t .none root walk
  content : ∀ ns content, t.node ns = some (.file content) → read (root.below ns) = .ok content
  time : ∀ ns, t.IsFile ns → ∃ ts, modified (root.below ns) = .ok ts ∧ 0 ≤ ts.seconds

/-- The state lists the visible files and nothing else. -/
def ListsVisible (t : DirTree) (state : SyncState) : Prop :=
  ∀ p, p ∈ state.tree ↔ ∃ ns, t.Visible ns ∧ p = .ofNames ns

theorem isFile_ne_none {t : DirTree} {ns : List Name} (h : t.IsFile ns) : t.node ns ≠ none := by
  obtain ⟨content, h⟩ := h
  rw [h]
  exact Option.some_ne_none _

/-- The filter of relative paths is the one that was meant. -/
theorem hasHiddenComponents_ofNames_iff {t : DirTree} (hutf : t.Utf8Names) {ns : List Name}
    (h : t.node ns ≠ none) : hasHiddenComponents (.ofNames ns) = true ↔ DottedNames ns :=
  hasHiddenComponents_ofNames (hutf ns h)

/-- The filter of walked paths takes the root into account. -/
theorem tracked_iff {t : DirTree} (hutf : t.Utf8Names) {root : PathBuf} {ns : List Name} :
    Tracked t root true ns ↔ hasHiddenComponents root = false ∧ t.Visible ns := by
  unfold Tracked DirTree.Visible
  rw [hasHiddenComponents_below, Bool.or_eq_false_iff]
  constructor
  · rintro ⟨hfile, hhidden⟩
    obtain ⟨hroot, hnames⟩ := hhidden rfl
    -- the names below the root are the relative path
    refine ⟨hroot, hfile, fun hdotted => ?_⟩
    rw [(hasHiddenComponents_ofNames_iff hutf (isFile_ne_none hfile)).mpr hdotted] at hnames
    cases hnames
  · rintro ⟨hroot, hfile, hnames⟩
    refine ⟨hfile, fun _ => ⟨hroot, ?_⟩⟩
    rwa [Bool.eq_false_iff, ne_eq, hasHiddenComponents_ofNames_iff hutf (isFile_ne_none hfile)]

/-! ### The state of a tree at a root -/

section StandsAt

variable {t : DirTree} {D : Crates} {read : PathBuf → Except Failure Bytes}
  {modified : PathBuf → Except Failure Timestamp} {root : PathBuf}
  {walk : List (Option DirEntry)} {now : Int} {state : SyncState}

/-- Every file is read. -/
theorem StandsAt.exists_metadata (h : StandsAt t read modified root walk) {ns : List Name}
    {content : Bytes} (hnode : t.node ns = some (.file content)) :
    ∃ ts, FileMetadata.new D read modified (root.below ns) = .ok ⟨D.blake3 content, ts⟩ := by
  obtain ⟨ts, hts, hepoch⟩ := h.time ns ⟨content, hnode⟩
  exact ⟨ts, FileMetadata.new_eq_ok.mpr ⟨content, ts, h.content ns content hnode, hts, hepoch, rfl⟩⟩

theorem StandsAt.exists_state (D : Crates) (now : Int) (h : StandsAt t read modified root walk) :
    ∃ state, generateState D read modified root now walk true = .ok state := by
  rw [exists_state_iff h.walk]
  rintro ns ⟨⟨content, hnode⟩, -⟩ -
  obtain ⟨ts, hts⟩ := h.exists_metadata hnode
  exact ⟨_, hts⟩

/-- **The map of paths and hashes**: the visible files, or nothing below a root
with a dot. -/
theorem StandsAt.contents_iff (hutf : t.Utf8Names) (h : StandsAt t read modified root walk)
    (hstate : generateState D read modified root now walk true = .ok state) {p : PathBuf}
    {hash : Digest} : state.contents p = some hash ↔
      hasHiddenComponents root = false ∧ ∃ ns content, p = .ofNames ns ∧ ¬ DottedNames ns ∧
        t.node ns = some (.file content) ∧ hash = D.blake3 content := by
  -- what is listed at the path of a file
  have hat : ∀ {ns content}, t.node ns = some (.file content) → ∀ {m},
      state.tree[PathBuf.ofNames ns]? = some m → m.hash = D.blake3 content := by
    intro ns content hnode m hm
    obtain ⟨ns', hns, -, hread⟩ := exists_of_getElem?_tree h.walk hstate hm
    obtain rfl := ofNames_injective hns
    obtain ⟨ts, hts⟩ := h.exists_metadata (D := D) hnode
    obtain rfl := Except.ok.inj (hread.symm.trans hts)
    rfl
  constructor
  · intro hhash
    obtain ⟨m, hm, rfl⟩ := Option.map_eq_some_iff.mp hhash
    obtain ⟨ns, rfl, htracked, -⟩ := exists_of_getElem?_tree h.walk hstate hm
    obtain ⟨hroot, ⟨content, hnode⟩, hnames⟩ := (tracked_iff hutf).mp htracked
    exact ⟨hroot, ns, content, rfl, hnames, hnode, hat hnode hm⟩
  · rintro ⟨hroot, ns, content, rfl, hnames, hnode, rfl⟩
    have hmem : PathBuf.ofNames ns ∈ state.tree :=
      (mem_tree_iff h.walk hstate ns).mpr
        ⟨(tracked_iff hutf).mpr ⟨hroot, ⟨content, hnode⟩, hnames⟩, shows_none ns⟩
    obtain ⟨m, hm⟩ := Option.isSome_iff_exists.mp (Std.TreeMap.mem_iff_isSome_getElem?.mp hmem)
    exact Option.map_eq_some_iff.mpr ⟨m, hm, hat hnode hm⟩

theorem mem_tree_iff_contents {p : PathBuf} : p ∈ state.tree ↔ ∃ hash, state.contents p = some hash := by
  rw [Std.TreeMap.mem_iff_isSome_getElem?, Option.isSome_iff_exists]
  constructor
  · rintro ⟨m, hm⟩
    exact ⟨m.hash, Option.map_eq_some_iff.mpr ⟨m, hm, rfl⟩⟩
  · rintro ⟨hash, hhash⟩
    obtain ⟨m, hm, -⟩ := Option.map_eq_some_iff.mp hhash
    exact ⟨m, hm⟩

/-- What is listed: the visible files, or nothing. -/
theorem StandsAt.mem_tree_iff (hutf : t.Utf8Names) (h : StandsAt t read modified root walk)
    (hstate : generateState D read modified root now walk true = .ok state) (p : PathBuf) :
    p ∈ state.tree ↔
      hasHiddenComponents root = false ∧ ∃ ns, t.Visible ns ∧ p = .ofNames ns := by
  rw [mem_tree_iff_contents]
  constructor
  · rintro ⟨hash, hhash⟩
    obtain ⟨hroot, ns, content, hp, hnames, hnode, -⟩ := (h.contents_iff hutf hstate).mp hhash
    exact ⟨hroot, ns, ⟨⟨content, hnode⟩, hnames⟩, hp⟩
  · rintro ⟨hroot, ns, ⟨⟨content, hnode⟩, hnames⟩, hp⟩
    exact ⟨_, (h.contents_iff hutf hstate).mpr ⟨hroot, ns, content, hp, hnames, hnode, rfl⟩⟩

/-- The visible files are listed exactly below a root without a dot, unless there
are none. -/
theorem StandsAt.listsVisible_iff (hutf : t.Utf8Names) (h : StandsAt t read modified root walk)
    (hstate : generateState D read modified root now walk true = .ok state) :
    ListsVisible t state ↔ hasHiddenComponents root = false ∨ ∀ ns, ¬ t.Visible ns := by
  unfold ListsVisible
  simp only [h.mem_tree_iff hutf hstate]
  constructor
  · intro hlists
    by_contra hnot
    obtain ⟨hroot, hvisible⟩ := not_or.mp hnot
    obtain ⟨ns, hns⟩ := not_forall_not.mp hvisible
    exact hroot ((hlists _).mpr ⟨ns, hns, rfl⟩).1
  · rintro (hroot | hnone) p
    · exact and_iff_right hroot
    · constructor
      · exact And.right
      · rintro ⟨ns, hns, -⟩
        exact absurd hns (hnone ns)

end StandsAt

/-- The same tree at two roots: the same map, unless a dot in one of the roots
takes all the visible files. -/
theorem contents_eq_iff {t : DirTree} (hutf : t.Utf8Names) {D : Crates}
    {read read' : PathBuf → Except Failure Bytes}
    {modified modified' : PathBuf → Except Failure Timestamp} {root root' : PathBuf}
    {walk walk' : List (Option DirEntry)} {now now' : Int} {state state' : SyncState}
    (h : StandsAt t read modified root walk) (h' : StandsAt t read' modified' root' walk')
    (hstate : generateState D read modified root now walk true = .ok state)
    (hstate' : generateState D read' modified' root' now' walk' true = .ok state') :
    state.contents = state'.contents ↔
      hasHiddenComponents root = hasHiddenComponents root' ∨ ∀ ns, ¬ t.Visible ns := by
  constructor
  · intro heq
    by_contra hnot
    obtain ⟨hroots, hvisible⟩ := not_or.mp hnot
    obtain ⟨ns, ⟨content, hnode⟩, hnames⟩ := not_forall_not.mp hvisible
    have hlisted : state.contents (.ofNames ns) = some (D.blake3 content) ↔
        hasHiddenComponents root = false :=
      (h.contents_iff hutf hstate).trans (and_iff_left ⟨ns, content, rfl, hnames, hnode, rfl⟩)
    have hlisted' : state'.contents (.ofNames ns) = some (D.blake3 content) ↔
        hasHiddenComponents root' = false :=
      (h'.contents_iff hutf hstate').trans (and_iff_left ⟨ns, content, rfl, hnames, hnode, rfl⟩)
    apply hroots
    rw [← Bool.not_inj_iff, Bool.eq_iff_iff, Bool.not_eq_true', Bool.not_eq_true', ← hlisted,
      ← hlisted', heq]
  · intro hcond
    funext p
    ext hash
    rw [h.contents_iff hutf hstate, h'.contents_iff hutf hstate']
    rcases hcond with hroots | hnone
    · rw [hroots]
    · constructor
      · rintro ⟨-, ns, content, -, hnames, hnode, -⟩
        exact absurd ⟨⟨content, hnode⟩, hnames⟩ (hnone ns)
      · rintro ⟨-, ns, content, -, hnames, hnode, -⟩
        exact absurd ⟨⟨content, hnode⟩, hnames⟩ (hnone ns)

/-- **Which files are tracked.**  A readable tree of UTF-8 names has a state at
every root, and `compare_states` filters its relative paths by their names alone.
The state lists exactly the visible files if and only if no component of the root
starts with a dot or no file is visible; and the states of two roots have the
same map of paths and hashes if and only if both roots have such a component,
neither has one, or no file is visible. -/
theorem tracked_by_relative_path_iff (D : Crates) {t : DirTree} (hutf : t.Utf8Names)
    {read read' : PathBuf → Except Failure Bytes}
    {modified modified' : PathBuf → Except Failure Timestamp} {root root' : PathBuf}
    {walk walk' : List (Option DirEntry)} (h : StandsAt t read modified root walk)
    (h' : StandsAt t read' modified' root' walk') (now now' : Int) :
    (∀ ns, t.node ns ≠ none → (hasHiddenComponents (.ofNames ns) = true ↔ DottedNames ns)) ∧
      ∃ state state', generateState D read modified root now walk true = .ok state ∧
        generateState D read' modified' root' now' walk' true = .ok state' ∧
        (ListsVisible t state ↔ hasHiddenComponents root = false ∨ ∀ ns, ¬ t.Visible ns) ∧
        (state.contents = state'.contents ↔
          hasHiddenComponents root = hasHiddenComponents root' ∨ ∀ ns, ¬ t.Visible ns) := by
  obtain ⟨state, hstate⟩ := h.exists_state D now
  obtain ⟨state', hstate'⟩ := h'.exists_state D now'
  exact ⟨fun ns => hasHiddenComponents_ofNames_iff hutf, state, state', hstate, hstate',
    h.listsVisible_iff hutf hstate, contents_eq_iff hutf h h' hstate hstate'⟩

/-! ### One file at different roots -/

/-- The name `a`. -/
def nameA : Name := ⟨[0x61], by decide⟩

theorem standsAt_oneFile (root : PathBuf) (n : Name) (content : Bytes) :
    StandsAt (.oneFile n content) (fun _ => .ok content) (fun _ => .ok ⟨0, 0⟩) root
      (oneFileWalk root n (some true)) where
  walk := yields_oneFileWalk root n content
  content ns content' h := by
    rcases node_oneFile_eq_some.mp h with ⟨-, h⟩ | ⟨-, h⟩
    · cases h
    · obtain rfl := Node.file.inj h
      rfl
  time _ _ := ⟨_, rfl, le_rfl⟩

theorem utf8Names_oneFile (content : Bytes) : (DirTree.oneFile nameA content).Utf8Names := by
  intro ns hns n hn
  obtain ⟨node, hnode⟩ := Option.ne_none_iff_exists'.mp hns
  rcases node_oneFile_eq_some.mp hnode with ⟨rfl, -⟩ | ⟨rfl, -⟩
  · exact absurd hn List.not_mem_nil
  · obtain rfl := List.mem_singleton.mp hn
    exact Utf8.valid_ascii (s := 'a') (by decide)

theorem visible_oneFile (content : Bytes) : (DirTree.oneFile nameA content).Visible [nameA] :=
  ⟨⟨content, node_oneFile_eq_some.mpr (.inr ⟨rfl, rfl⟩)⟩, by decide⟩

/-- Below `data` and `/srv` the file is listed. -/
theorem tracked_by_relative_path_plain :
    ∃ state state', generateState sampleCrates (fun _ => .ok [1]) (fun _ => .ok ⟨0, 0⟩)
        (.ofString "data") 0 (oneFileWalk (.ofString "data") nameA (some true)) true = .ok state ∧
      generateState sampleCrates (fun _ => .ok [1]) (fun _ => .ok ⟨0, 0⟩) (.ofString "/srv") 0
        (oneFileWalk (.ofString "/srv") nameA (some true)) true = .ok state' ∧
      ListsVisible (.oneFile nameA [1]) state ∧ state.contents = state'.contents := by
  have hdata : hasHiddenComponents (.ofString "data") = false := by decide
  have hsrv : hasHiddenComponents (.ofString "/srv") = false := by decide
  obtain ⟨-, state, state', hstate, hstate', hlists, hcontents⟩ :=
    tracked_by_relative_path_iff sampleCrates (utf8Names_oneFile [1])
      (standsAt_oneFile (.ofString "data") nameA [1]) (standsAt_oneFile (.ofString "/srv") nameA [1])
      0 0
  exact ⟨state, state', hstate, hstate', hlists.mpr (.inl hdata),
    hcontents.mpr (.inl (hdata.trans hsrv.symm))⟩

/-- Below `./data` it is not, and moving the tree there from `data` changes the
map. -/
theorem dotted_root_lists_nothing :
    StandsAt (.oneFile nameA [1]) (fun _ => .ok [1]) (fun _ => .ok ⟨0, 0⟩) (.ofString "./data")
        (oneFileWalk (.ofString "./data") nameA (some true)) ∧
      (DirTree.oneFile nameA [1]).Visible [nameA] ∧
    ∃ state state', generateState sampleCrates (fun _ => .ok [1]) (fun _ => .ok ⟨0, 0⟩)
        (.ofString "./data") 0 (oneFileWalk (.ofString "./data") nameA (some true)) true =
          .ok state ∧
      generateState sampleCrates (fun _ => .ok [1]) (fun _ => .ok ⟨0, 0⟩) (.ofString "data") 0
        (oneFileWalk (.ofString "data") nameA (some true)) true = .ok state' ∧
      ¬ ListsVisible (.oneFile nameA [1]) state ∧ state.contents ≠ state'.contents := by
  have hdotted : hasHiddenComponents (.ofString "./data") = true := by decide
  have hdata : hasHiddenComponents (.ofString "data") = false := by decide
  have hdots := standsAt_oneFile (.ofString "./data") nameA [1]
  have hplain := standsAt_oneFile (.ofString "data") nameA [1]
  have hutf := utf8Names_oneFile [1]
  obtain ⟨state, hstate⟩ := hdots.exists_state sampleCrates 0
  obtain ⟨state', hstate'⟩ := hplain.exists_state sampleCrates 0
  refine ⟨hdots, visible_oneFile [1], state, state', hstate, hstate', ?_, ?_⟩
  · rw [hdots.listsVisible_iff hutf hstate, hdotted]
    rintro (h | h)
    · cases h
    · exact h _ (visible_oneFile [1])
  · rw [ne_eq, contents_eq_iff hutf hdots hplain hstate hstate', hdotted, hdata]
    rintro (h | h)
    · cases h
    · exact h _ (visible_oneFile [1])

end Harmonic
