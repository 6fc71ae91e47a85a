/-
Harmonic/Place.lean

The place a path denotes when `.` and `..` are followed lexically.

`PathBuf.resolve` walks the components and keeps how far above the start the
path has climbed (`ups`) and the names below that.  `Place.Under` is lexical
containment.  `lexicalClean` is the shortest path to a place, which is what the
`path_clean` crate documents for `clean`; the crate itself is a parameter of
the model, and theorems that need it assume `CleanSpec`.
-/
import Harmonic.Path

namespace Harmonic

/-- Where a path leads, lexically. -/
structure Place where
  absolute : Bool
  ups : ℕ
  names : List Name
  deriving DecidableEq

/-- Follow one component.  `..` at the root of the file system stays there. -/
def Place.follow (l : Place) : Component → Place
  | .normal n => { l with names := l.names ++ [n] }
  | .parentDir =>
    if l.names ≠ [] then { l with names := l.names.dropLast }
    else if l.absolute then l
    else { l with ups := l.ups + 1 }

/-- Follow a path from its start. -/
def PathBuf.resolve (p : PathBuf) : Place :=
  p.comps.foldl Place.follow ⟨p.isAbsolute, 0, []⟩

/-- The directory a place is in. -/
def Place.parent (l : Place) : Place := { l with names := l.names.dropLast }

/-- `l` is `root` or lies below it. -/
def Place.Under (root l : Place) : Prop :=
  l.absolute = root.absolute ∧ l.ups = root.ups ∧ root.names <+: l.names

instance (root l : Place) : Decidable (root.Under l) := by
  unfold Place.Under; infer_instance

/-- The shortest path to a place, `.` for the start itself. -/
def Place.toPath (l : Place) : PathBuf where
  anchor :=
    if l.absolute then .rootDir
    else if l.ups = 0 ∧ l.names = [] then .curDir
    else .none
  comps := List.replicate l.ups .parentDir ++ l.names.map .normal

/-- What `path_clean` documents: `.` dropped, `name/..` cancelled from left to
right, `.` for an empty result. -/
def lexicalClean (p : PathBuf) : PathBuf := p.resolve.toPath

/-- The documented behaviour of `path_clean::clean`. -/
def CleanSpec (clean : PathBuf → PathBuf) : Prop := ∀ p, clean p = lexicalClean p

/-! ### Resolving -/

@[simp] theorem follow_normal (l : Place) (n : Name) :
    l.follow (.normal n) = ⟨l.absolute, l.ups, l.names ++ [n]⟩ := rfl

@[simp] theorem absolute_follow (l : Place) (c : Component) :
    (l.follow c).absolute = l.absolute := by
  rcases c with - | n
  · simp only [Place.follow]
    split
    · rfl
    · split <;> rfl
  · rfl

theorem absolute_foldl_follow (l : Place) (cs : List Component) :
    (cs.foldl Place.follow l).absolute = l.absolute := by
  induction cs generalizing l with
  | nil => rfl
  | cons c cs ih => rw [List.foldl_cons, ih, absolute_follow]

theorem absolute_resolve (p : PathBuf) : p.resolve.absolute = p.isAbsolute :=
  absolute_foldl_follow _ _

/-- Names are followed downwards. -/
theorem foldl_follow_normal (l : Place) (ns : List Name) :
    (ns.map Component.normal).foldl Place.follow l = ⟨l.absolute, l.ups, l.names ++ ns⟩ := by
  induction ns generalizing l with
  | nil => simp
  | cons n ns ih => simp [ih]

/-- A relative argument of `join` is followed from where the path leads. -/
theorem resolve_join {p q : PathBuf} (hq : q.isAbsolute = false) :
    (p.join q).resolve = q.comps.foldl Place.follow p.resolve := by
  unfold PathBuf.join
  rw [hq, if_neg Bool.false_ne_true]
  split
  · rename_i h
    subst h
    unfold PathBuf.resolve
    rw [hq]
    rfl
  · simp only [PathBuf.resolve, PathBuf.isAbsolute, List.foldl_append]

/-- The components of a relative argument are appended. -/
theorem comps_join {p q : PathBuf} (hq : q.isAbsolute = false) :
    (p.join q).comps = p.comps ++ q.comps := by
  unfold PathBuf.join
  rw [hq, if_neg Bool.false_ne_true]
  split
  · rename_i h
    rw [h]
    rfl
  · rfl

/-- The file name of a joined path is the last of the names appended. -/
theorem fileName_join {p q : PathBuf} {ns : List Name} (hq : q.isAbsolute = false)
    (hcomps : q.comps = ns.map .normal) (hne : ns ≠ []) :
    (p.join q).fileName = some (ns.getLast hne) := by
  rw [PathBuf.fileName, comps_join hq, hcomps, List.getLast?_append, List.getLast?_map,
    List.getLast?_eq_some_getLast hne]
  rfl

/-- A joined path starts with what it was joined to. -/
theorem startsWith_join {p q : PathBuf} (hq : q.isAbsolute = false) :
    (p.join q).startsWith p = true := by
  unfold PathBuf.join
  rw [hq, if_neg Bool.false_ne_true]
  split
  · rename_i h
    subst h
    simp [PathBuf.startsWith, PathBuf.ordKey]
  · simp [PathBuf.startsWith, PathBuf.ordKey, ← List.append_assoc]

/-! ### Cleaning -/

theorem isAbsolute_lexicalClean (p : PathBuf) : (lexicalClean p).isAbsolute = p.isAbsolute := by
  have h := absolute_resolve p
  unfold lexicalClean Place.toPath PathBuf.isAbsolute
  rw [h]
  unfold PathBuf.isAbsolute
  rcases p.anchor with - | - | - <;>
    by_cases hs : p.resolve.ups = 0 ∧ p.resolve.names = [] <;> simp [hs]

/-- The path `..` of `cleaned.starts_with("..")`. -/
def dotDot : PathBuf := ⟨.none, [.parentDir]⟩

/-- A cleaned relative path starts with `..` exactly when it climbs. -/
theorem startsWith_dotDot_lexicalClean {p : PathBuf} (h : p.isAbsolute = false) :
    (lexicalClean p).startsWith dotDot = true ↔ p.resolve.ups ≠ 0 := by
  have ha : p.resolve.absolute = false := (absolute_resolve p).trans h
  rcases hu : p.resolve.ups with - | u
  · rcases hn : p.resolve.names with - | ⟨n, ns⟩ <;>
      simp [lexicalClean, Place.toPath, PathBuf.startsWith, PathBuf.ordKey, dotDot, ha, hu, hn,
        Component.ordKey]
  · simp [lexicalClean, Place.toPath, PathBuf.startsWith, PathBuf.ordKey, dotDot, ha, hu,
      Component.ordKey, List.replicate_succ]

/-- Following a cleaned path that does not climb goes down its names. -/
theorem resolve_join_lexicalClean {p q : PathBuf} (hq : q.isAbsolute = false)
    (hu : q.resolve.ups = 0) :
    (p.join (lexicalClean q)).resolve =
      ⟨p.resolve.absolute, p.resolve.ups, p.resolve.names ++ q.resolve.names⟩ := by
  rw [resolve_join ((isAbsolute_lexicalClean q).trans hq)]
  simp only [lexicalClean, Place.toPath, hu, List.replicate_zero, List.nil_append]
  exact foldl_follow_normal p.resolve q.resolve.names

/-! ### Plain paths: names only -/

/-- A relative path made of ordinary names, at least one. -/
def PathBuf.Plain (p : PathBuf) : Prop :=
  ∃ ns : List Name, ns ≠ [] ∧ p = ⟨.none, ns.map .normal⟩

theorem PathBuf.Plain.isAbsolute {p : PathBuf} (h : p.Plain) : p.isAbsolute = false := by
  obtain ⟨ns, -, rfl⟩ := h
  rfl

theorem PathBuf.Plain.resolve_names {ns : List Name} :
    (PathBuf.mk .none (ns.map .normal)).resolve = ⟨false, 0, ns⟩ := by
  exact foldl_follow_normal ⟨false, 0, []⟩ ns

/-- Cleaning a plain path changes nothing. -/
theorem PathBuf.Plain.lexicalClean_eq {p : PathBuf} (h : p.Plain) : lexicalClean p = p := by
  obtain ⟨ns, hne, rfl⟩ := h
  simp [lexicalClean, PathBuf.Plain.resolve_names, Place.toPath, hne]

theorem PathBuf.Plain.not_startsWith_dotDot {p : PathBuf} (h : p.Plain) :
    p.startsWith dotDot = false := by
  obtain ⟨ns, hne, rfl⟩ := h
  rcases ns with - | ⟨n, ns⟩
  · exact absurd rfl hne
  · simp [PathBuf.startsWith, PathBuf.ordKey, dotDot, Component.ordKey, List.isPrefixOf]

end Harmonic
