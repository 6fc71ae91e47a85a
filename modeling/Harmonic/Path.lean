/-
Harmonic/Path.lean

`std::path` on Unix, as the program uses it.

Rust compares, orders and hashes a `PathBuf` by its components, so a path is
its component list: repeated separators, trailing separators and inner `.` are
gone, a leading `.` stays.  `PathBuf` stores what a path starts with and the
components after that; an ordinary component is a `Name`, which cannot be
empty, `.`, `..` or contain a separator, so every value is the component list
of some string.

`ofString` parses what `PathBuf::from` accepts, `toStr?` is `Path::to_str`
(`none` when the bytes are not UTF-8), and `ofString_of_toStr?` says the round
trip loses nothing.  `resolve` is the place a path denotes when `.` and `..`
are followed lexically.
-/
import Mathlib

namespace Harmonic

/-- Bytes of a file, of a path, of a message field. -/
abbrev Bytes := List UInt8

/-- `std::ffi::OsStr` on Unix: any bytes. -/
abbrev OsStr := List UInt8

def slash : UInt8 := 0x2f
def dot : UInt8 := 0x2e

/-- What `Component::Normal` can hold. -/
def IsName (n : OsStr) : Prop := n ≠ [] ∧ slash ∉ n ∧ n ≠ [dot] ∧ n ≠ [dot, dot]

instance (n : OsStr) : Decidable (IsName n) := by
  unfold IsName; infer_instance

/-- A file name. -/
abbrev Name := {n : OsStr // IsName n}

/-- `std::path::Component` after the first. -/
inductive Component
  | parentDir
  | normal (name : Name)
  deriving DecidableEq

/-- What a path starts with: nothing, `RootDir` or `CurDir`. -/
inductive Anchor
  | none
  | rootDir
  | curDir
  deriving DecidableEq

/-- `std::path::PathBuf`, up to its own equality. -/
structure PathBuf where
  anchor : Anchor
  comps : List Component
  deriving DecidableEq

/-- `PathBuf::new`. -/
instance : Inhabited PathBuf := ⟨⟨.none, []⟩⟩

/-! ### Strings -/

/-- `Component::as_os_str`. -/
def Component.asOsStr : Component → OsStr
  | .parentDir => [dot, dot]
  | .normal n => n.1

/-- One piece between separators. -/
def Component.ofPiece (p : OsStr) : Option Component :=
  if p = [dot, dot] then some .parentDir
  else if h : IsName p then some (.normal ⟨p, h⟩) else none

/-- The pieces between separators, leading and trailing ones included. -/
def PathBuf.ofPieces (absolute : Bool) (pieces : List OsStr) : PathBuf where
  anchor :=
    if absolute then .rootDir else if pieces.head? = some [dot] then .curDir else .none
  comps := pieces.filterMap Component.ofPiece

/-- `Path::components`, from the bytes of the path. -/
def PathBuf.ofBytes (bs : OsStr) : PathBuf :=
  .ofPieces (bs.head? == some slash) (bs.splitOn slash)

/-- `PathBuf::from` a string. -/
def PathBuf.ofString (s : String) : PathBuf := .ofBytes s.toUTF8.data.toList

/-- The bytes of a path: its components with single separators. -/
def PathBuf.asOsStr (p : PathBuf) : OsStr :=
  match p.anchor with
  | .none => [slash].intercalate (p.comps.map Component.asOsStr)
  | .rootDir => slash :: [slash].intercalate (p.comps.map Component.asOsStr)
  | .curDir => [slash].intercalate ([dot] :: p.comps.map Component.asOsStr)

/-- `OsStr::to_str`. -/
def OsStr.toStr? (bs : OsStr) : Option String := String.fromUTF8? ⟨⟨bs⟩⟩

/-- `Path::to_str`. -/
def PathBuf.toStr? (p : PathBuf) : Option String := OsStr.toStr? p.asOsStr

theorem slash_notMem_asOsStr (c : Component) : slash ∉ c.asOsStr := by
  rcases c with - | n
  · decide
  · exact n.2.2.1

theorem asOsStr_ne_nil (c : Component) : c.asOsStr ≠ [] := by
  rcases c with - | n
  · simp [Component.asOsStr]
  · exact n.2.1

theorem asOsStr_ne_dot (c : Component) : c.asOsStr ≠ [dot] := by
  rcases c with - | n
  · simp [Component.asOsStr]
  · exact n.2.2.2.1

@[simp] theorem ofPiece_asOsStr (c : Component) : Component.ofPiece c.asOsStr = some c := by
  rcases c with - | n
  · simp [Component.ofPiece, Component.asOsStr]
  · simp [Component.ofPiece, Component.asOsStr, n.2.2.2.2, n.2]

theorem filterMap_ofPiece (cs : List Component) :
    (cs.map Component.asOsStr).filterMap Component.ofPiece = cs := by
  induction cs with
  | nil => rfl
  | cons c cs ih => simp [ih]

theorem ofPiece_nil : Component.ofPiece [] = none := by decide

theorem ofPiece_dot : Component.ofPiece [dot] = none := by decide

theorem splitOn_slash_comps {cs : List Component} (h : cs ≠ []) :
    ([slash].intercalate (cs.map Component.asOsStr)).splitOn slash =
      cs.map Component.asOsStr := by
  refine List.splitOn_intercalate slash ?_ (by simpa using h)
  intro l hl
  obtain ⟨c, -, rfl⟩ := List.mem_map.mp hl
  exact slash_notMem_asOsStr c

theorem head?_intercalate_comps (cs : List Component) :
    ([slash].intercalate (cs.map Component.asOsStr)).head? ≠ some slash := by
  rcases cs with - | ⟨c, cs⟩
  · simp [List.intercalate]
  · intro h
    have hhead : c.asOsStr.head? = some slash := by
      rcases hc : c.asOsStr with - | ⟨b, bs⟩
      · exact absurd hc (asOsStr_ne_nil c)
      · rcases cs with - | ⟨c', cs⟩ <;>
          simpa [List.intercalate, hc] using h
    exact slash_notMem_asOsStr c (List.mem_of_mem_head? hhead)

/-- Reading back the bytes of a path gives the path. -/
theorem ofBytes_asOsStr (p : PathBuf) : PathBuf.ofBytes p.asOsStr = p := by
  obtain ⟨a, cs⟩ := p
  rcases a with - | - | -
  · -- no anchor
    have hh := head?_intercalate_comps cs
    rcases cs with - | ⟨c, cs⟩
    · decide
    · have hdot : ¬ c.asOsStr = [dot] := asOsStr_ne_dot c
      simp only [PathBuf.ofBytes, PathBuf.asOsStr, PathBuf.ofPieces,
        splitOn_slash_comps (List.cons_ne_nil c cs), filterMap_ofPiece, beq_eq_false_iff_ne.mpr hh]
      simp [hdot]
  · -- a leading separator
    have hs : ∀ bs : OsStr, (slash :: bs).splitOn slash = [] :: bs.splitOn slash := by
      intro bs; simp [List.splitOn_cons_eq_if_modifyHead]
    rcases cs with - | ⟨c, cs⟩
    · decide
    · simp only [PathBuf.ofBytes, PathBuf.asOsStr, PathBuf.ofPieces, hs,
        splitOn_slash_comps (List.cons_ne_nil c cs), List.filterMap_cons, ofPiece_nil,
        List.head?_cons, BEq.rfl, if_true]
      exact congrArg _ (filterMap_ofPiece (c :: cs))
  · -- a leading `.`
    have hsplit : ([slash].intercalate ([dot] :: cs.map Component.asOsStr)).splitOn slash =
        [dot] :: cs.map Component.asOsStr := by
      refine List.splitOn_intercalate slash ?_ (List.cons_ne_nil _ _)
      intro l hl
      rcases List.mem_cons.mp hl with rfl | hl
      · decide
      · obtain ⟨c, -, rfl⟩ := List.mem_map.mp hl
        exact slash_notMem_asOsStr c
    have hh : ([slash].intercalate ([dot] :: cs.map Component.asOsStr)).head? ≠ some slash := by
      rcases cs with - | ⟨c, cs⟩ <;> simp [List.intercalate, dot, slash]
    simp only [PathBuf.ofBytes, PathBuf.asOsStr, PathBuf.ofPieces, hsplit,
      beq_eq_false_iff_ne.mpr hh, List.filterMap_cons, ofPiece_dot, filterMap_ofPiece]
    simp

/-- **Round trip.**  `PathBuf::from` undoes `Path::to_str`. -/
theorem ofString_of_toStr? {p : PathBuf} {s : String} (h : p.toStr? = some s) :
    PathBuf.ofString s = p := by
  unfold PathBuf.toStr? OsStr.toStr? String.fromUTF8? at h
  split at h
  · obtain rfl := Option.some.inj h
    exact ofBytes_asOsStr p
  · cases h

/-! ### Order -/

/-- What the derived order of components compares: the variant, then the name. -/
def Component.ordKey : Component → List UInt8
  | .parentDir => [2]
  | .normal n => 3 :: n.1

/-- The components of a path, the first one included, as the order sees them. -/
def PathBuf.ordKey (p : PathBuf) : List (List UInt8) :=
  (match p.anchor with
    | .none => []
    | .rootDir => [[0]]
    | .curDir => [[1]]) ++ p.comps.map Component.ordKey

theorem Component.ordKey_injective : Function.Injective Component.ordKey := by
  rintro (- | n) (- | m) h
  · rfl
  · simp [ordKey] at h
  · simp [ordKey] at h
  · exact congrArg _ (Subtype.ext (by simpa [ordKey] using h))

theorem Component.ordKey_head (c : Component) :
    c.ordKey ≠ [0] ∧ c.ordKey ≠ [1] := by
  rcases c with - | n <;> simp [ordKey]

theorem PathBuf.ordKey_injective : Function.Injective PathBuf.ordKey := by
  rintro ⟨a, cs⟩ ⟨b, ds⟩ h
  have hmap : ∀ {cs ds : List Component},
      cs.map Component.ordKey = ds.map Component.ordKey → cs = ds :=
    fun h => List.map_injective_iff.mpr Component.ordKey_injective h
  have hhead : ∀ {k : List UInt8} {ks : List (List UInt8)} {cs : List Component},
      k = [0] ∨ k = [1] → k :: ks ≠ cs.map Component.ordKey := by
    intro k ks cs hk he
    rcases cs with - | ⟨c, cs⟩
    · cases he
    · have hc : c.ordKey = k := by simpa using (List.cons.inj he).1.symm
      rcases hk with rfl | rfl
      · exact c.ordKey_head.1 hc
      · exact c.ordKey_head.2 hc
  rcases a with - | - | - <;> rcases b with - | - | - <;>
    simp only [ordKey, List.nil_append, List.cons_append, List.cons.injEq] at h
  · rw [hmap h]
  · exact absurd h.symm (hhead (.inl rfl))
  · exact absurd h.symm (hhead (.inr rfl))
  · exact absurd h (hhead (.inl rfl))
  · rw [hmap h.2]
  · simp at h
  · exact absurd h (hhead (.inr rfl))
  · simp at h
  · rw [hmap h.2]

/-- `Ord for PathBuf`: components in lexicographic order. -/
instance : Ord PathBuf := ⟨fun p q => compare p.ordKey q.ordKey⟩

instance : Std.TransOrd PathBuf :=
  inferInstanceAs (Std.TransCmp (compareOn PathBuf.ordKey))

instance : Std.LawfulEqOrd PathBuf where
  compare_self {p} := (Std.ReflCmp.compare_self : compare p.ordKey p.ordKey = .eq)
  eq_of_compare h := PathBuf.ordKey_injective (Std.LawfulEqCmp.eq_of_compare h)

/-! ### Joining, prefixes, extensions -/

/-- `Path::is_absolute`. -/
def PathBuf.isAbsolute (p : PathBuf) : Bool := p.anchor == .rootDir

/-- `Path::join`: an absolute argument replaces the path. -/
def PathBuf.join (p q : PathBuf) : PathBuf :=
  if q.isAbsolute then q
  else if p = ⟨.none, []⟩ then q
  else ⟨p.anchor, p.comps ++ q.comps⟩

/-- `Path::starts_with`. -/
def PathBuf.startsWith (p base : PathBuf) : Bool := base.ordKey.isPrefixOf p.ordKey

/-- `has_hidden_components`: some component is UTF-8 and starts with a dot. -/
def hasHiddenComponents (p : PathBuf) : Bool :=
  p.anchor == .curDir ||
    p.comps.any fun c => (OsStr.toStr? c.asOsStr).isSome && c.asOsStr.head? == some dot

/-- `Path::file_name`. -/
def PathBuf.fileName (p : PathBuf) : Option Name :=
  match p.comps.getLast? with
  | some (.normal n) => some n
  | _ => none

/-- `rsplit_file_at_dot` of the standard library: what stands before and after
the last dot; a name whose only dot leads it has no extension. -/
def rsplitAtDot (n : OsStr) : Option OsStr × Option OsStr :=
  match n.reverse.dropWhile (· ≠ dot) with
  | [] => (none, some n)
  | [_] => (some n, none)
  | _ :: before => (some before.reverse, some (n.reverse.takeWhile (· ≠ dot)).reverse)

/-- `Path::file_stem` of a file name. -/
def fileStem (n : OsStr) : OsStr :=
  match rsplitAtDot n with
  | (some before, _) => before
  | (none, _) => n

/-- `Path::extension` of a file name. -/
def extension (n : OsStr) : Option OsStr :=
  match rsplitAtDot n with
  | (some _, some after) => some after
  | _ => none

/-- `PathBuf::set_extension`. -/
def PathBuf.setExtension (p : PathBuf) (ext : OsStr) : PathBuf :=
  match p.fileName with
  | none => p
  | some n =>
    let name := fileStem n ++ (if ext = [] then [] else dot :: ext)
    ⟨p.anchor, p.comps.dropLast ++ (name.splitOn slash).filterMap Component.ofPiece⟩

/-- The two ways a file name splits at its last dot. -/
theorem fileStem_extension (n : OsStr) :
    (extension n = none ∧ fileStem n = n) ∨
      ∃ e, extension n = some e ∧ fileStem n ≠ [] ∧ n = fileStem n ++ dot :: e := by
  have hsplit : n = (n.reverse.dropWhile (· ≠ dot)).reverse ++
      (n.reverse.takeWhile (· ≠ dot)).reverse := by
    rw [← List.reverse_append, List.takeWhile_append_dropWhile, List.reverse_reverse]
  rcases h : n.reverse.dropWhile (· ≠ dot) with - | ⟨d, - | ⟨b, bs⟩⟩
  · exact .inl ⟨by simp only [extension, rsplitAtDot, h], by simp only [fileStem, rsplitAtDot, h]⟩
  · exact .inl ⟨by simp only [extension, rsplitAtDot, h], by simp only [fileStem, rsplitAtDot, h]⟩
  · have hne : n.reverse.dropWhile (· ≠ dot) ≠ [] := by rw [h]; exact List.cons_ne_nil _ _
    have hd : d = dot := by
      have hhead := List.head_dropWhile_not (· ≠ dot) hne
      simp only [h, List.head_cons] at hhead
      simpa using hhead
    refine .inr ⟨(n.reverse.takeWhile (· ≠ dot)).reverse, ?_, ?_, ?_⟩
    · simp only [extension, rsplitAtDot, h]
    · simp only [fileStem, rsplitAtDot, h]
      simp
    · rw [h, hd] at hsplit
      simp only [fileStem, rsplitAtDot, h]
      simpa only [List.reverse_cons, List.append_assoc, List.singleton_append,
        List.cons_append, List.nil_append] using hsplit

end Harmonic
