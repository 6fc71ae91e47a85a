/-
Harmonic/Platforms.lean

Paths between hosts of different platforms.

A path goes over the wire as the text that the sender's `Path` displays, with the
sender's separator, and the receiver's `PathBuf::from` splits it at its own: `/`
on Unix, both `\` and `/` on Windows.  A path of names is the same component list
on either; on Windows a text that begins with a separator or a drive has a root
or a prefix, and `join` does not append such a path (`none`).  What the sync path
itself starts with, a drive included, stays in front of what is appended.

On Unix this is the parsing and printing of `Path` (`ofString_unix`,
`toStr?_unix`).  `survives_iff` says which lists of names arrive.
-/
import Harmonic.DirTree
import Harmonic.PathCheck

namespace Harmonic

/-! ### Platforms -/

inductive Platform
  | unix
  | windows
  deriving DecidableEq

def backslash : UInt8 := 0x5c
def colon : UInt8 := 0x3a

/-- `std::path::MAIN_SEPARATOR`. -/
def Platform.mainSeparator : Platform → UInt8
  | .unix => slash
  | .windows => backslash

/-- The bytes that a file name on Windows cannot have: `<>:"/\|?*`. -/
def reservedBytes : List UInt8 := [0x3c, 0x3e, colon, 0x22, slash, backslash, 0x7c, 0x3f, 0x2a]

/-- The UTF-8 file names of a platform. -/
def Platform.Legal (platform : Platform) (n : Name) : Prop :=
  Utf8.Valid n.1 ∧ (platform = .windows → ∀ b ∈ n.1, b ∉ reservedBytes)

/-- `u8::is_ascii_alphabetic`. -/
def isAsciiAlphabetic (b : UInt8) : Bool := 0x41 ≤ b && b ≤ 0x5a || 0x61 ≤ b && b ≤ 0x7a

/-- The text begins with a drive: a letter and a colon. -/
def hasDrive : OsStr → Bool
  | letter :: b :: _ => isAsciiAlphabetic letter && b == colon
  | _ => false

/-- Both separators are one. -/
def toSlash (b : UInt8) : UInt8 := if b = backslash then slash else b

/-- `PathBuf::from`, from the bytes of a text.  On Windows a path with a root or
a prefix is `none`. -/
def Platform.ofBytes (platform : Platform) (bs : OsStr) : Option PathBuf :=
  match platform with
  | .unix => some (.ofBytes bs)
  | .windows =>
    if hasDrive bs || (bs.head?.map toSlash == some slash) then none
    else some (.ofBytes (bs.map toSlash))

def Platform.ofString (platform : Platform) (s : String) : Option PathBuf :=
  platform.ofBytes s.toUTF8.data.toList

/-- The bytes of the relative path of these names. -/
def Platform.asOsStr (platform : Platform) (ns : List Name) : OsStr :=
  [platform.mainSeparator].intercalate (ns.map (·.1))

/-- `Path::to_str` of that path. -/
def Platform.toStr? (platform : Platform) (ns : List Name) : Option String :=
  OsStr.toStr? (platform.asOsStr ns)

/-! ### On Unix -/

theorem asOsStr_unix (ns : List Name) :
    Platform.unix.asOsStr ns = (PathBuf.ofNames ns).asOsStr := by
  unfold PathBuf.asOsStr PathBuf.ofNames Platform.asOsStr
  rw [List.map_map]
  rfl

theorem toStr?_unix (ns : List Name) : Platform.unix.toStr? ns = (PathBuf.ofNames ns).toStr? :=
  congrArg OsStr.toStr? (asOsStr_unix ns)

theorem ofString_unix (s : String) : Platform.unix.ofString s = some (PathBuf.ofString s) := rfl

/-- The text of a listed file is that of its path. -/
theorem text_of_tryFrom {d : Diff} {f : FileStatus} {ns : List Name}
    (h : FileStatus.tryFrom d = .ok f) (hd : d.path = .ofNames ns) :
    Platform.unix.toStr? ns = some f.path := by
  rw [toStr?_unix, ← hd]
  unfold FileStatus.tryFrom at h
  split at h
  · cases h
  · rename_i text htext
    obtain rfl := Except.ok.inj h
    exact htext

/-- And so is that of an action. -/
theorem text_of_actionAt {transfer : TransferDirection × Timestamp} {a : FileAction}
    {ns : List Name} (h : actionAt (.ofNames ns) transfer = .ok a) :
    Platform.unix.toStr? ns = some a.path := by
  rw [toStr?_unix]
  unfold actionAt at h
  split at h
  · cases h
  · rename_i text htext
    obtain rfl := Except.ok.inj h
    exact htext

/-! ### Over the wire -/

/-- A path arrives: its text, read by the receiver and passed through
`get_absolute_path`, is the receiver's sync path followed by the same names. -/
def Arrives (D : Crates) (sender receiver : Platform) (syncPath : PathBuf) (ns : List Name) :
    Prop :=
  ∃ text relativePath, sender.toStr? ns = some text ∧
    receiver.ofString text = some relativePath ∧
    getAbsolutePath D relativePath syncPath = .ok (syncPath.below ns)

/-- The names that arrive: all of them between hosts of one platform; one name
alone from Windows on Unix; from Unix on Windows those without a backslash, the
first of which does not begin with a drive. -/
def WireSafe (ns : List Name) : Platform → Platform → Prop
  | .unix, .unix | .windows, .windows => True
  | .windows, .unix => ns.length = 1
  | .unix, .windows =>
    (∀ n ∈ ns, backslash ∉ n.1) ∧ ∀ n, ns.head? = some n → hasDrive n.1 = false

/-! ### Texts -/

theorem bytes_of_toStr? {bs : OsStr} {text : String} (h : OsStr.toStr? bs = some text) :
    text.toUTF8.data.toList = bs := by
  unfold OsStr.toStr? String.fromUTF8? at h
  split at h
  · obtain rfl := Option.some.inj h
    rfl
  · cases h

/-- Names that are UTF-8 make a text, on either platform. -/
theorem exists_text (platform : Platform) {ns : List Name} (h : ∀ n ∈ ns, Utf8.Valid n.1) :
    ∃ text, platform.toStr? ns = some text := by
  rw [← Option.isSome_iff_exists]
  have hvalid : ∀ p ∈ ns.map (·.1), Utf8.Valid p := List.forall_mem_map.mpr h
  apply isSome_toStr?.mpr
  cases platform with
  | unix => exact Utf8.valid_intercalate (s := '/') (by decide) hvalid
  | windows => exact Utf8.valid_intercalate (s := '\\') (by decide) hvalid

/-- So a path arrives if its bytes, read by the receiver, give its names. -/
theorem arrives_iff {D : Crates} {sender receiver : Platform} {syncPath : PathBuf}
    {ns : List Name} (h : ∀ n ∈ ns, Utf8.Valid n.1) :
    Arrives D sender receiver syncPath ns ↔
      ∃ relativePath, receiver.ofBytes (sender.asOsStr ns) = some relativePath ∧
        getAbsolutePath D relativePath syncPath = .ok (syncPath.below ns) := by
  obtain ⟨text, htext⟩ := exists_text sender h
  have hread : receiver.ofString text = receiver.ofBytes (sender.asOsStr ns) := by
    unfold Platform.ofString
    rw [bytes_of_toStr? htext]
  constructor
  · rintro ⟨text', p, htext', hp, habs⟩
    obtain rfl := Option.some.inj (htext.symm.trans htext')
    exact ⟨p, hread ▸ hp, habs⟩
  · rintro ⟨p, hp, habs⟩
    exact ⟨text, p, htext, hread ▸ hp, habs⟩

/-! ### What the receiver makes of names -/

variable {D : Crates} {syncPath : PathBuf} {ns : List Name}

/-- Names are appended as they are. -/
theorem getAbsolutePath_ofNames (hclean : CleanSpec D.clean) (hne : ns ≠ []) :
    getAbsolutePath D (.ofNames ns) syncPath = .ok (syncPath.below ns) := by
  have hplain : (PathBuf.ofNames ns).Plain := ⟨ns, hne, rfl⟩
  have hcleaned : D.clean (.ofNames ns) = .ofNames ns :=
    (hclean _).trans hplain.lexicalClean_eq
  simp only [getAbsolutePath, hplain.isAbsolute, hcleaned, hplain.not_startsWith_dotDot,
    startsWith_join hplain.isAbsolute, Bool.false_eq_true, if_false, Bool.not_true]
  rfl

/-- Cleaning adds no name. -/
theorem mem_names_foldl_follow {l : Place} {cs : List Component} {n : Name}
    (h : n ∈ (cs.foldl Place.follow l).names) : n ∈ l.names ∨ Component.normal n ∈ cs := by
  induction cs generalizing l with
  | nil => exact .inl h
  | cons c cs ih =>
    rcases ih h with hl | hcs
    · rcases c with - | k
      · refine .inl ?_
        unfold Place.follow at hl
        dsimp only at hl
        split at hl
        · exact List.mem_of_mem_dropLast hl
        · split at hl
          · exact hl
          · exact hl
      · rw [follow_normal, List.mem_append, List.mem_singleton] at hl
        rcases hl with hl | rfl
        · exact .inl hl
        · exact .inr List.mem_cons_self
    · exact .inr (List.mem_cons_of_mem _ hcs)

/-- What is appended was among the components that were read. -/
theorem mem_comps_of_getAbsolutePath (hclean : CleanSpec D.clean) {p : PathBuf}
    (h : getAbsolutePath D p syncPath = .ok (syncPath.below ns)) {n : Name} (hn : n ∈ ns) :
    Component.normal n ∈ p.comps := by
  -- what was appended is the cleaned path: `..`s and names
  obtain ⟨-, hcomps, -⟩ := (getAbsolutePath_exact hclean p syncPath).2 _ h
  rw [below_eq, List.append_cancel_left_eq, hclean p] at hcomps
  have hmem : Component.normal n ∈ (lexicalClean p).comps := by
    rw [← hcomps]
    exact List.mem_map_of_mem hn
  rcases List.mem_append.mp hmem with hups | hnames
  · cases List.eq_of_mem_replicate hups
  · obtain ⟨k, hk, heq⟩ := List.mem_map.mp hnames
    obtain rfl := Component.normal.inj heq
    exact (mem_names_foldl_follow hk).resolve_left List.not_mem_nil

/-! ### Cutting and joining -/

section Join

variable {s b : UInt8} {ls : List OsStr}

theorem mem_intercalate_of_mem {l : OsStr} (hl : l ∈ ls) (hb : b ∈ l) :
    b ∈ [s].intercalate ls := by
  induction ls with
  | nil => exact absurd hl List.not_mem_nil
  | cons l' ls ih =>
    rcases ls with - | ⟨l'', ls⟩
    · obtain rfl := List.mem_singleton.mp hl
      rwa [List.intercalate_singleton]
    · rw [List.intercalate_cons_cons, List.mem_append, List.mem_append]
      rcases List.mem_cons.mp hl with rfl | hl
      · exact .inl (.inl hb)
      · exact .inr (ih hl)

theorem mem_of_mem_intercalate (h : b ∈ [s].intercalate ls) : b = s ∨ ∃ l ∈ ls, b ∈ l := by
  induction ls with
  | nil => cases h
  | cons l ls ih =>
    rcases ls with - | ⟨l', ls⟩
    · rw [List.intercalate_singleton] at h
      exact .inr ⟨l, List.mem_cons_self, h⟩
    · rw [List.intercalate_cons_cons, List.mem_append, List.mem_append, List.mem_singleton] at h
      rcases h with (hl | rfl) | hrest
      · exact .inr ⟨l, List.mem_cons_self, hl⟩
      · exact .inl rfl
      · rcases ih hrest with hs | ⟨k, hk, hbk⟩
        · exact .inl hs
        · exact .inr ⟨k, List.mem_cons_of_mem _ hk, hbk⟩

theorem map_intercalate (f : UInt8 → UInt8) :
    ([s].intercalate ls).map f = [f s].intercalate (ls.map (List.map f)) := by
  induction ls with
  | nil => rfl
  | cons l ls ih =>
    rcases ls with - | ⟨l', ls⟩
    · rw [List.intercalate_singleton, List.map_singleton, List.intercalate_singleton]
    · rw [List.intercalate_cons_cons, List.map_append, List.map_append, ih]
      simp only [List.map_cons, List.map_nil, List.intercalate_cons_cons]

/-- A name that is read is one of the pieces. -/
theorem mem_of_normal_mem_ofBytes {bs : OsStr} {n : Name}
    (h : Component.normal n ∈ (PathBuf.ofBytes bs).comps) : n.1 ∈ bs.splitOn slash := by
  obtain ⟨piece, hpiece, hofPiece⟩ := List.mem_filterMap.mp h
  rwa [show n.1 = piece from asOsStr_of_ofPiece hofPiece]

end Join

/-- Without a slash there is one piece. -/
theorem eq_of_normal_mem_ofBytes {bs : OsStr} (hbs : slash ∉ bs) {n : Name}
    (h : Component.normal n ∈ (PathBuf.ofBytes bs).comps) : n.1 = bs := by
  have hpiece := mem_of_normal_mem_ofBytes h
  rw [List.splitOn_eq_singleton hbs] at hpiece
  exact List.mem_singleton.mp hpiece

theorem toSlash_ne_backslash (b : UInt8) : toSlash b ≠ backslash := by
  unfold toSlash
  split
  · decide
  · assumption

theorem map_toSlash {bs : OsStr} (h : backslash ∉ bs) : bs.map toSlash = bs := by
  refine (List.map_congr_left fun b hb => ?_).trans (List.map_id bs)
  have hne : b ≠ backslash := fun heq => h (heq ▸ hb)
  exact if_neg hne

/-- On Windows no name that is read has a backslash. -/
theorem backslash_notMem_of_windows {bs : OsStr} {p : PathBuf}
    (hp : Platform.windows.ofBytes bs = some p) {n : Name} (h : Component.normal n ∈ p.comps) :
    backslash ∉ n.1 := by
  unfold Platform.ofBytes at hp
  dsimp only at hp
  split at hp
  · cases hp
  · obtain rfl := Option.some.inj hp
    intro hb
    have hjoin : [slash].intercalate ((bs.map toSlash).splitOn slash) = bs.map toSlash :=
      List.intercalate_splitOn slash
    -- it would be in the text, where every separator is a slash
    have hmem : backslash ∈ bs.map toSlash := by
      rw [← hjoin]
      exact mem_intercalate_of_mem (mem_of_normal_mem_ofBytes h) hb
    obtain ⟨b, -, hb⟩ := List.mem_map.mp hmem
    exact toSlash_ne_backslash b hb

theorem slash_notMem_name (n : Name) : slash ∉ n.1 := n.2.2.1

/-- What is appended to a text does not give it a drive. -/
theorem hasDrive_append {l m : OsStr} (hl : l ≠ []) (hm : m.head? ≠ some colon) :
    hasDrive (l ++ m) = hasDrive l := by
  rcases l with - | ⟨a, - | ⟨b, l⟩⟩
  · exact absurd rfl hl
  · rcases m with - | ⟨c, m⟩
    · rfl
    · have hc : (c == colon) = false := beq_eq_false_iff_ne.mpr fun h => hm (congrArg some h)
      show (isAsciiAlphabetic a && c == colon) = false
      rw [hc, Bool.and_false]
  · rfl

/-- The drive of a path is that of its first name. -/
theorem hasDrive_join {s : UInt8} (hs : s ≠ colon) (n : Name) (ns : List Name) :
    hasDrive ([s].intercalate ((n :: ns).map (·.1))) = hasDrive n.1 := by
  rcases ns with - | ⟨k, ns⟩
  · rw [List.map_singleton, List.intercalate_singleton]
  · rw [List.map_cons, List.map_cons, List.intercalate_cons_cons, List.append_assoc]
    apply hasDrive_append n.2.1
    simpa using hs

/-- A name that is legal on Windows has neither separator, and no drive. -/
theorem Platform.Legal.of_windows {n : Name} (h : Platform.windows.Legal n) :
    backslash ∉ n.1 ∧ hasDrive n.1 = false := by
  have hreserved := h.2 rfl
  refine ⟨fun hb => hreserved _ hb (by decide), ?_⟩
  rcases hn : n.1 with - | ⟨a, - | ⟨b, l⟩⟩
  · rfl
  · rfl
  · have hb : (b == colon) = false := by
      rw [beq_eq_false_iff_ne]
      rintro rfl
      exact hreserved colon (by rw [hn]; simp) (by decide)
    show (isAsciiAlphabetic a && b == colon) = false
    rw [hb, Bool.and_false]

/-- **Windows reads names** joined by either separator, if none has a backslash
and the first no drive. -/
theorem ofBytes_windows {sender : Platform} (hne : ns ≠ [])
    (hnames : ∀ n ∈ ns, backslash ∉ n.1)
    (hdrive : ∀ n, ns.head? = some n → hasDrive n.1 = false) :
    Platform.windows.ofBytes (sender.asOsStr ns) = some (.ofNames ns) := by
  -- with one separator for both, the text is that of the path on Unix
  have hmap : (sender.asOsStr ns).map toSlash = (PathBuf.ofNames ns).asOsStr := by
    have hpieces : (ns.map (·.1)).map (List.map toSlash) = ns.map (·.1) := by
      rw [List.map_map]
      exact List.map_congr_left fun n hn => map_toSlash (hnames n hn)
    have hsep : toSlash sender.mainSeparator = slash := by
      cases sender <;> rfl
    unfold Platform.asOsStr
    rw [map_intercalate, hpieces, hsep]
    unfold PathBuf.asOsStr PathBuf.ofNames
    rw [List.map_map]
    rfl
  -- it has neither a root nor a drive in front
  have hrooted : (sender.asOsStr ns).head?.map toSlash ≠ some slash := by
    rw [← List.head?_map, hmap]
    exact head?_intercalate_comps (ns.map .normal)
  have hnodrive : hasDrive (sender.asOsStr ns) = false := by
    rcases ns with - | ⟨n, ns⟩
    · exact absurd rfl hne
    · have hsep : sender.mainSeparator ≠ colon := by
        cases sender <;> decide
      exact (hasDrive_join hsep n ns).trans (hdrive n rfl)
  unfold Platform.ofBytes
  rw [hnodrive, beq_eq_false_iff_ne.mpr hrooted, hmap, ofBytes_asOsStr]
  rfl

/-- **Unix reads its own paths.** -/
theorem ofBytes_unix : Platform.unix.ofBytes (Platform.unix.asOsStr ns) = some (.ofNames ns) := by
  rw [asOsStr_unix]
  exact congrArg some (ofBytes_asOsStr _)

/-- One name is the same text on either platform. -/
theorem asOsStr_singleton (platform : Platform) (n : Name) : platform.asOsStr [n] = n.1 := by
  unfold Platform.asOsStr
  rw [List.map_singleton, List.intercalate_singleton]

/-! ### What arrives -/

/-- What the receiver reads as the names arrives. -/
theorem arrives_of_ofBytes (hclean : CleanSpec D.clean) {sender receiver : Platform}
    (hne : ns ≠ []) (hutf : ∀ n ∈ ns, Utf8.Valid n.1)
    (h : receiver.ofBytes (sender.asOsStr ns) = some (.ofNames ns)) :
    Arrives D sender receiver syncPath ns :=
  (arrives_iff hutf).mpr ⟨_, h, getAbsolutePath_ofNames hclean hne⟩

/-- From Windows on Unix: the path is one name there. -/
theorem arrives_windows_unix_iff (hclean : CleanSpec D.clean) (hne : ns ≠ [])
    (hlegal : ∀ n ∈ ns, Platform.windows.Legal n) :
    Arrives D .windows .unix syncPath ns ↔ ns.length = 1 := by
  have hutf : ∀ n ∈ ns, Utf8.Valid n.1 := fun n hn => (hlegal n hn).1
  constructor
  · intro h
    obtain ⟨p, hp, habs⟩ := (arrives_iff hutf).mp h
    obtain rfl := Option.some.inj hp
    -- there is no slash in the text, so Unix reads one name at most
    have hslash : slash ∉ Platform.windows.asOsStr ns := by
      intro hmem
      rcases mem_of_mem_intercalate hmem with heq | ⟨l, hl, hb⟩
      · cases heq
      · obtain ⟨n, -, rfl⟩ := List.mem_map.mp hl
        exact slash_notMem_name n hb
    rcases ns with - | ⟨n, - | ⟨k, ns⟩⟩
    · exact absurd rfl hne
    · rfl
    · -- the first name would be the whole text, with its backslash
      have hwhole : n.1 = Platform.windows.asOsStr (n :: k :: ns) :=
        eq_of_normal_mem_ofBytes hslash
          (mem_comps_of_getAbsolutePath hclean habs List.mem_cons_self)
      have hback : backslash ∈ n.1 := by
        rw [hwhole]
        unfold Platform.asOsStr
        rw [List.map_cons, List.map_cons, List.intercalate_cons_cons]
        exact List.mem_append_left _ (List.mem_append_right _ (List.mem_singleton_self _))
      exact absurd hback (hlegal n List.mem_cons_self).of_windows.1
  · intro hlen
    obtain ⟨n, rfl⟩ := List.length_eq_one_iff.mp hlen
    apply arrives_of_ofBytes hclean hne hutf
    rw [asOsStr_singleton .windows, ← asOsStr_singleton .unix]
    exact ofBytes_unix

/-- From Unix on Windows: a backslash is a separator there, and a drive a
prefix. -/
theorem arrives_unix_windows_iff (hclean : CleanSpec D.clean) (hne : ns ≠ [])
    (hutf : ∀ n ∈ ns, Utf8.Valid n.1) :
    Arrives D .unix .windows syncPath ns ↔
      (∀ n ∈ ns, backslash ∉ n.1) ∧ ∀ n, ns.head? = some n → hasDrive n.1 = false := by
  constructor
  · intro h
    obtain ⟨p, hp, habs⟩ := (arrives_iff hutf).mp h
    refine ⟨fun n hn => backslash_notMem_of_windows hp
      (mem_comps_of_getAbsolutePath hclean habs hn), fun n hn => ?_⟩
    obtain ⟨ns, rfl⟩ := List.head?_eq_some_iff.mp hn
    rw [← hasDrive_join (show slash ≠ colon by decide) n ns, Bool.eq_false_iff]
    intro hdrive
    -- a drive in front is a prefix, and the path is not relative
    have hnone : Platform.windows.ofBytes (Platform.unix.asOsStr (n :: ns)) = none := by
      unfold Platform.ofBytes
      rw [show hasDrive (Platform.unix.asOsStr (n :: ns)) = true from hdrive]
      rfl
    cases hnone.symm.trans hp
  · rintro ⟨hnames, hdrive⟩
    exact arrives_of_ofBytes hclean hne hutf (ofBytes_windows hne hnames hdrive)

/-- **Which paths survive the wire.**  A non-empty list of names that are legal
on the sender's platform arrives exactly if it is safe for the two platforms. -/
theorem survives_wire_iff (hclean : CleanSpec D.clean) (sender receiver : Platform)
    (syncPath : PathBuf) (hne : ns ≠ []) (hlegal : ∀ n ∈ ns, sender.Legal n) :
    Arrives D sender receiver syncPath ns ↔ WireSafe ns sender receiver := by
  have hutf : ∀ n ∈ ns, Utf8.Valid n.1 := fun n hn => (hlegal n hn).1
  cases sender with
  | unix =>
    cases receiver with
    | unix => exact iff_of_true (arrives_of_ofBytes hclean hne hutf ofBytes_unix) trivial
    | windows => exact arrives_unix_windows_iff hclean hne hutf
  | windows =>
    cases receiver with
    | unix => exact arrives_windows_unix_iff hclean hne hlegal
    | windows =>
      -- what is legal on Windows has no separator and no drive
      have hread : Platform.windows.ofBytes (Platform.windows.asOsStr ns) = some (.ofNames ns) :=
        ofBytes_windows hne (fun n hn => (hlegal n hn).of_windows.1)
          fun n hn => (hlegal n (List.mem_of_mem_head? hn)).of_windows.2
      exact iff_of_true (arrives_of_ofBytes hclean hne hutf hread) trivial

/-- The names `d` and `f`. -/
def namesDF : List Name := [⟨[0x64], by decide⟩, ⟨[0x66], by decide⟩]

theorem legal_namesDF (platform : Platform) : ∀ n ∈ namesDF, platform.Legal n := by
  intro n hn
  rcases List.mem_pair.mp hn with rfl | rfl
  · refine ⟨Utf8.valid_ascii (s := 'd') (by decide), fun _ b hb => ?_⟩
    obtain rfl := List.mem_singleton.mp hb
    decide
  · refine ⟨Utf8.valid_ascii (s := 'f') (by decide), fun _ b hb => ?_⟩
    obtain rfl := List.mem_singleton.mp hb
    decide

/-- `d/f` survives on its way from Unix to Windows. -/
theorem survives_wire_unix_windows :
    Arrives sampleCrates .unix .windows (.ofString "s") namesDF :=
  (survives_wire_iff (fun _ => rfl) .unix .windows (.ofString "s") (by decide)
    (legal_namesDF .unix)).mpr ⟨by decide, by decide⟩

/-- `d\f` does not survive on its way from Windows to Unix. -/
theorem lost_windows_unix :
    (∀ n ∈ namesDF, Platform.windows.Legal n) ∧
      ¬ Arrives sampleCrates .windows .unix (.ofString "s") namesDF := by
  refine ⟨legal_namesDF .windows, fun h => ?_⟩
  have hone := (arrives_windows_unix_iff (fun _ => rfl) (by decide) (legal_namesDF .windows)).mp h
  exact absurd hone (by decide)

end Harmonic
