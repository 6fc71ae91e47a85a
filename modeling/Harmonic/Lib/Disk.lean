/-
Harmonic/Lib/Disk.lean

A disk as directory entries over inodes.

Places are keys of a type `K` with a `parent`; a place holds nothing, a
directory or an inode number, and each inode carries a datum.  Open files are
inode numbers, so a handle stays on its inode when another entry is renamed
over the place it was opened at.  A `Disk` has no hard links and hands out
fresh inode numbers; both facts are fields, so every operation re-establishes
them once and no caller has to.

Operations are `open` for writing with truncation (`create`), replacing the
datum of an open file (`write`), `rename` and `remove` of a file.  Each comes with the
places it leaves alone, one by one and as a frame: `AgreeOff S d d'` says that
nothing changed outside the places `S`.  `Alike F d d'` says that two disks
cannot be told apart by work at the places `F`, and each operation keeps it.
-/
import Mathlib

namespace Storage

variable {K δ : Type*}

/-- What a directory entry points to. -/
inductive Entry
  | dir
  | file (inode : ℕ)
  deriving DecidableEq

/-- Why an operation fails. -/
inductive Failure
  | notFound
  | isADirectory
  | other
  deriving DecidableEq

/-- Entries, inode data, and the next free inode number. -/
structure Disk (K δ : Type*) where
  entry : K → Option Entry
  node : ℕ → δ
  nextInode : ℕ
  fresh : ∀ {k n}, entry k = some (.file n) → n < nextInode
  unlinked : ∀ {k k' n}, entry k = some (.file n) → entry k' = some (.file n) → k = k'

namespace Disk

/-- A disk with directories only. -/
def ofDirs (isDir : K → Bool) (x : δ) : Disk K δ where
  entry k := if isDir k then some .dir else none
  node _ := x
  nextInode := 0
  fresh := by
    intro k n h
    split at h <;> cases h
  unlinked := by
    intro k k' n h
    split at h <;> cases h

/-- The datum of the file at a place. -/
def lookup (d : Disk K δ) (k : K) : Option δ :=
  match d.entry k with
  | some (.file n) => some (d.node n)
  | _ => none

/-- Read a file. -/
def read (d : Disk K δ) (k : K) : Except Failure δ :=
  match d.entry k with
  | some (.file n) => .ok (d.node n)
  | some .dir => .error .isADirectory
  | none => .error .notFound

/-- Is there anything at this place? -/
def present (d : Disk K δ) (k : K) : Bool := (d.entry k).isSome

theorem lookup_of_entry {d : Disk K δ} {k : K} {n : ℕ} (h : d.entry k = some (.file n)) :
    d.lookup k = some (d.node n) := by
  simp [lookup, h]

/-- Replace the datum of an open file. -/
def write (d : Disk K δ) (n : ℕ) (x : δ) : Disk K δ where
  entry := d.entry
  node := Function.update d.node n x
  nextInode := d.nextInode
  fresh := d.fresh
  unlinked := d.unlinked

@[simp] theorem entry_write (d : Disk K δ) (n : ℕ) (x : δ) : (d.write n x).entry = d.entry := rfl

@[simp] theorem node_write_self (d : Disk K δ) (n : ℕ) (x : δ) : (d.write n x).node n = x := by
  simp [write]

/-- Writing an open file changes no place but the one linked to it. -/
theorem lookup_write_of_ne {d : Disk K δ} {q : K} {n : ℕ} {x : δ}
    (h : d.entry q ≠ some (.file n)) : (d.write n x).lookup q = d.lookup q := by
  rcases hq : d.entry q with - | - | m
  · simp [lookup, hq]
  · simp [lookup, hq]
  · have hmn : m ≠ n := by
      rintro rfl
      exact h hq
    simp [lookup, hq, write, Function.update_of_ne hmn]

variable [DecidableEq K]

/-- Link a fresh inode at a free place. -/
def link (d : Disk K δ) (k : K) (x : δ) : Disk K δ where
  entry := Function.update d.entry k (some (.file d.nextInode))
  node := Function.update d.node d.nextInode x
  nextInode := d.nextInode + 1
  fresh := by
    intro k' n h
    by_cases hk : k' = k
    · subst hk
      simp only [Function.update_self, Option.some.injEq, Entry.file.injEq] at h
      omega
    · rw [Function.update_of_ne hk] at h
      exact (d.fresh h).trans (Nat.lt_succ_self _)
  unlinked := by
    intro k₁ k₂ n h₁ h₂
    have hold : ∀ {k'}, k' ≠ k →
        Function.update d.entry k (some (.file d.nextInode)) k' = some (.file n) →
        d.entry k' = some (.file n) := by
      intro k' hk h
      rwa [Function.update_of_ne hk] at h
    have hnew : Function.update d.entry k (some (.file d.nextInode)) k = some (.file n) →
        n = d.nextInode := by
      intro h
      simp only [Function.update_self, Option.some.injEq, Entry.file.injEq] at h
      exact h.symm
    by_cases e₁ : k₁ = k <;> by_cases e₂ : k₂ = k
    · rw [e₁, e₂]
    · subst e₁
      exact absurd (hnew h₁) (d.fresh (hold e₂ h₂)).ne
    · subst e₂
      exact absurd (hnew h₂) (d.fresh (hold e₁ h₁)).ne
    · exact d.unlinked (hold e₁ h₁) (hold e₂ h₂)

/-- Move the file entry `n` from place `k` to place `k'`. -/
def relink (d : Disk K δ) (k k' : K) (n : ℕ) (h : d.entry k = some (.file n)) : Disk K δ where
  entry := Function.update (Function.update d.entry k none) k' (some (.file n))
  node := d.node
  nextInode := d.nextInode
  fresh := by
    intro q m hq
    by_cases e : q = k'
    · subst e
      simp only [Function.update_self, Option.some.injEq, Entry.file.injEq] at hq
      exact hq ▸ d.fresh h
    · rw [Function.update_of_ne e] at hq
      by_cases e₂ : q = k
      · subst e₂; simp at hq
      · rw [Function.update_of_ne e₂] at hq
        exact d.fresh hq
  unlinked := by
    intro q₁ q₂ m h₁ h₂
    have hcase : ∀ {q}, Function.update (Function.update d.entry k none) k'
        (some (.file n)) q = some (.file m) →
        (q = k' ∧ m = n) ∨ (q ≠ k' ∧ q ≠ k ∧ d.entry q = some (.file m)) := by
      intro q hq
      by_cases e : q = k'
      · subst e
        simp only [Function.update_self, Option.some.injEq, Entry.file.injEq] at hq
        exact .inl ⟨rfl, hq.symm⟩
      · rw [Function.update_of_ne e] at hq
        by_cases e₂ : q = k
        · subst e₂; simp at hq
        · rw [Function.update_of_ne e₂] at hq
          exact .inr ⟨e, e₂, hq⟩
    rcases hcase h₁ with ⟨rfl, rfl⟩ | ⟨-, hk₁, e₁⟩ <;>
      rcases hcase h₂ with ⟨rfl, hm⟩ | ⟨-, hk₂, e₂⟩
    · rfl
    · exact absurd (d.unlinked e₂ h) hk₂
    · subst hm; exact absurd (d.unlinked e₁ h) hk₁
    · exact d.unlinked e₁ e₂

/-- Open for writing: truncate the file at `k` to `x`, or create it with `x` if
its parent is a directory. -/
def create (d : Disk K δ) (parent : K → K) (k : K) (x : δ) : Except Failure (Disk K δ × ℕ) :=
  match d.entry k with
  | some (.file n) => .ok (d.write n x, n)
  | some .dir => .error .isADirectory
  | none =>
    if d.entry (parent k) = some .dir then .ok (d.link k x, d.nextInode)
    else .error .notFound

/-- Rename the file at `k` to `k'`, over whatever file is there. -/
def rename (d : Disk K δ) (k k' : K) : Except Failure (Disk K δ) :=
  match h : d.entry k with
  | some (.file n) =>
    if d.entry k' = some .dir then .error .isADirectory
    else .ok (d.relink k k' n h)
  | some .dir => .error .other
  | none => .error .notFound

/-- Take the entry of a place away. -/
def unlink (d : Disk K δ) (k : K) : Disk K δ where
  entry := Function.update d.entry k none
  node := d.node
  nextInode := d.nextInode
  fresh := by
    intro q n h
    by_cases hq : q = k
    · subst hq
      simp at h
    · rw [Function.update_of_ne hq] at h
      exact d.fresh h
  unlinked := by
    intro q₁ q₂ n h₁ h₂
    have hold : ∀ {q}, Function.update d.entry k none q = some (.file n) →
        d.entry q = some (.file n) := by
      intro q h
      by_cases hq : q = k
      · subst hq
        simp at h
      · rwa [Function.update_of_ne hq] at h
    exact d.unlinked (hold h₁) (hold h₂)

/-- Delete the file at `k`. -/
def remove (d : Disk K δ) (k : K) : Except Failure (Disk K δ) :=
  match d.entry k with
  | some (.file _) => .ok (d.unlink k)
  | some .dir => .error .isADirectory
  | none => .error .notFound

/-! ### What each operation does and what it leaves alone -/

variable {d d' : Disk K δ} {k k' q : K} {n : ℕ} {x : δ}

/-- A fresh inode is seen at its place only. -/
theorem lookup_link_of_ne (hq : q ≠ k) : (d.link k x).lookup q = d.lookup q := by
  rcases hq' : d.entry q with - | - | m
  · simp [lookup, link, Function.update_of_ne hq, hq']
  · simp [lookup, link, Function.update_of_ne hq, hq']
  · have hmn : m ≠ d.nextInode := (d.fresh hq').ne
    simp [lookup, link, Function.update_of_ne hq, hq', Function.update_of_ne hmn]

/-- What a successful `create` leaves behind. -/
theorem create_ok {parent : K → K} (h : d.create parent k x = .ok (d', n)) :
    d'.entry k = some (.file n) ∧ d'.node n = x ∧
      (∀ q, q ≠ k → d'.entry q = d.entry q) ∧ (∀ q, q ≠ k → d'.lookup q = d.lookup q) := by
  unfold create at h
  split at h
  · rename_i m hm
    obtain ⟨rfl, rfl⟩ := Prod.mk.inj (Except.ok.inj h)
    refine ⟨hm, node_write_self _ _ _, fun q _ => rfl, fun q hq => ?_⟩
    exact lookup_write_of_ne fun hq' => hq (d.unlinked hq' hm)
  · cases h
  · rename_i hm
    split at h
    · obtain ⟨rfl, rfl⟩ := Prod.mk.inj (Except.ok.inj h)
      refine ⟨by simp [link], by simp [link], fun q hq => ?_, fun q hq => lookup_link_of_ne hq⟩
      simp [link, Function.update_of_ne hq]
    · cases h

/-- `create` truncates a file that is there. -/
theorem create_of_entry {parent : K → K} (h : d.entry k = some (.file n)) :
    d.create parent k x = .ok (d.write n x, n) := by
  simp only [create, h]

/-- The inode that `create` opens: the one linked at `k`, or the next free one. -/
theorem create_inode {parent : K → K} (h : d.create parent k x = .ok (d', n)) :
    (d.entry k = some (.file n) ∨ n = d.nextInode) ∧ d.nextInode ≤ d'.nextInode := by
  unfold create at h
  split at h
  · rename_i m hm
    obtain ⟨rfl, rfl⟩ := Prod.mk.inj (Except.ok.inj h)
    exact ⟨.inl hm, le_rfl⟩
  · cases h
  · split at h
    · obtain ⟨rfl, rfl⟩ := Prod.mk.inj (Except.ok.inj h)
      exact ⟨.inr rfl, Nat.le_succ _⟩
    · cases h

/-- No file is created where a directory stands. -/
theorem create_ne_dir {parent : K → K} (h : d.create parent k x = .ok (d', n)) :
    d.entry k ≠ some .dir := by
  intro hk
  simp only [create, hk] at h
  cases h

/-- Where nothing stands, `create` needs the parent to be a directory. -/
theorem create_parent {parent : K → K} (h : d.create parent k x = .ok (d', n)) :
    (∃ m, d.entry k = some (.file m)) ∨ d.entry (parent k) = some .dir := by
  unfold create at h
  split at h
  · exact .inl ⟨_, ‹_›⟩
  · cases h
  · split at h
    · exact .inr ‹_›
    · cases h

/-- `create` succeeds where no directory stands and the parent is one. -/
theorem create_isOk {parent : K → K} (hk : d.entry k ≠ some .dir)
    (hp : d.entry (parent k) = some .dir) : ∃ p, d.create parent k x = .ok p := by
  rcases h : d.entry k with - | - | m
  · exact ⟨(d.link k x, d.nextInode), by simp only [create, h, hp, if_true]⟩
  · exact absurd h hk
  · exact ⟨(d.write m x, m), by simp only [create, h]⟩

/-- Only files are renamed. -/
theorem file_of_rename_ok (h : d.rename k k' = .ok d') : ∃ n, d.entry k = some (.file n) := by
  unfold rename at h
  split at h
  · exact ⟨_, ‹_›⟩
  · cases h
  · cases h

/-- What a successful `rename` of an open file leaves behind. -/
theorem rename_ok (hk : d.entry k = some (.file n)) (h : d.rename k k' = .ok d') :
    d'.entry k' = some (.file n) ∧ d'.node = d.node ∧
      (∀ q, q ≠ k → q ≠ k' → d'.entry q = d.entry q) ∧
      (∀ q, q ≠ k → q ≠ k' → d'.lookup q = d.lookup q) := by
  unfold rename at h
  split at h
  · rename_i m hm
    obtain rfl : m = n := by simpa using hm.symm.trans hk
    split at h
    · cases h
    · obtain rfl := Except.ok.inj h
      have hq : ∀ q, q ≠ k → q ≠ k' → (d.relink k k' m hm).entry q = d.entry q := by
        intro q h₁ h₂
        simp [relink, Function.update_of_ne h₁, Function.update_of_ne h₂]
      refine ⟨by simp [relink], rfl, hq, fun q h₁ h₂ => ?_⟩
      simp only [lookup, hq q h₁ h₂]
      rfl
  · cases h
  · cases h

/-- What `rename` takes away, and what it cannot replace. -/
theorem rename_source (h : d.rename k k' = .ok d') :
    (k ≠ k' → d'.entry k = none) ∧ d.entry k' ≠ some .dir ∧ d'.nextInode = d.nextInode := by
  unfold rename at h
  split at h
  · split at h
    · cases h
    · rename_i hdir
      obtain rfl := Except.ok.inj h
      refine ⟨fun hne => ?_, hdir, rfl⟩
      simp [relink, Function.update_of_ne hne]
  · cases h
  · cases h

/-- `rename` succeeds on a file unless its target is a directory. -/
theorem rename_isOk (hk : d.entry k = some (.file n)) (hk' : d.entry k' ≠ some .dir) :
    ∃ d', d.rename k k' = .ok d' := by
  unfold rename
  split
  · simp [hk']
  · rename_i h
    rw [hk] at h
    cases h
  · rename_i h
    rw [hk] at h
    cases h

/-! ### Frames -/

/-- Nothing changed outside the places `S`. -/
def AgreeOff (S : Set K) (d d' : Disk K δ) : Prop :=
  ∀ q, q ∉ S → d'.entry q = d.entry q ∧ d'.lookup q = d.lookup q

variable {S : Set K} {d'' : Disk K δ}

omit [DecidableEq K] in
theorem AgreeOff.refl (S : Set K) (d : Disk K δ) : AgreeOff S d d := fun _ _ => ⟨rfl, rfl⟩

omit [DecidableEq K] in
theorem AgreeOff.mono {T : Set K} (h : AgreeOff S d d') (hST : S ⊆ T) : AgreeOff T d d' :=
  fun q hq => h q fun hS => hq (hST hS)

omit [DecidableEq K] in
theorem AgreeOff.trans (h₁ : AgreeOff S d d') (h₂ : AgreeOff S d' d'') : AgreeOff S d d'' := by
  intro q hq
  obtain ⟨he₁, hl₁⟩ := h₁ q hq
  obtain ⟨he₂, hl₂⟩ := h₂ q hq
  exact ⟨he₂.trans he₁, hl₂.trans hl₁⟩

theorem create_agreeOff {parent : K → K} (h : d.create parent k x = .ok (d', n)) (hk : k ∈ S) :
    AgreeOff S d d' := by
  intro q hq
  obtain ⟨-, -, hentry, hlookup⟩ := create_ok h
  have hne : q ≠ k := fun he => hq (he ▸ hk)
  exact ⟨hentry q hne, hlookup q hne⟩

theorem rename_agreeOff (h : d.rename k k' = .ok d') (hk : k ∈ S) (hk' : k' ∈ S) :
    AgreeOff S d d' := by
  intro q hq
  obtain ⟨n, hn⟩ := file_of_rename_ok h
  obtain ⟨-, -, hentry, hlookup⟩ := rename_ok hn h
  have hne : q ≠ k := fun he => hq (he ▸ hk)
  have hne' : q ≠ k' := fun he => hq (he ▸ hk')
  exact ⟨hentry q hne hne', hlookup q hne hne'⟩

theorem remove_agreeOff (h : d.remove k = .ok d') (hk : k ∈ S) : AgreeOff S d d' := by
  unfold remove at h
  split at h
  · obtain rfl := Except.ok.inj h
    intro q hq
    have hne : q ≠ k := fun he => hq (he ▸ hk)
    have hentry : (d.unlink k).entry q = d.entry q := Function.update_of_ne hne _ _
    refine ⟨hentry, ?_⟩
    simp only [lookup, hentry]
    rfl
  · cases h
  · cases h

omit [DecidableEq K] in
/-- Writing an open file changes the places it is linked at. -/
theorem write_agreeOff (h : ∀ q, d.entry q = some (.file n) → q ∈ S) :
    AgreeOff S d (d.write n x) :=
  fun q hq => ⟨rfl, lookup_write_of_ne fun he => hq (h q he)⟩

/-! ### Directories -/

/-- `create` makes no directory and replaces none. -/
theorem create_dir_iff {parent : K → K} (h : d.create parent k x = .ok (d', n)) :
    d'.entry q = some .dir ↔ d.entry q = some .dir := by
  obtain ⟨hentry, -, hentries, -⟩ := create_ok h
  by_cases hq : q = k
  · subst hq
    exact iff_of_false (by simp [hentry]) (create_ne_dir h)
  · rw [hentries q hq]

/-- `rename` moves no directory and replaces none. -/
theorem rename_dir_iff (h : d.rename k k' = .ok d') :
    d'.entry q = some .dir ↔ d.entry q = some .dir := by
  obtain ⟨n, hn⟩ := file_of_rename_ok h
  obtain ⟨hentry, -, hentries, -⟩ := rename_ok hn h
  obtain ⟨hsource, htarget, -⟩ := rename_source h
  by_cases hq' : q = k'
  · subst hq'
    exact iff_of_false (by simp [hentry]) htarget
  · by_cases hq : q = k
    · subst hq
      exact iff_of_false (by simp [hsource hq']) (by simp [hn])
    · rw [hentries q hq hq']

/-! ### Disks that look the same -/

/-- The same directories, and the same data at the places `F`; the inodes may
have other numbers. -/
structure Alike (F : Set K) (d d' : Disk K δ) : Prop where
  dir : ∀ q, d.entry q = some .dir ↔ d'.entry q = some .dir
  lookup : ∀ q ∈ F, d.lookup q = d'.lookup q

namespace Alike

variable {F : Set K} {d₁ d₁' : Disk K δ} {m : ℕ} {parent : K → K}

omit [DecidableEq K] in
theorem refl (F : Set K) (d : Disk K δ) : Alike F d d := ⟨fun _ => Iff.rfl, fun _ _ => rfl⟩

omit [DecidableEq K] in
theorem symm (h : Alike F d d') : Alike F d' d :=
  ⟨fun q => (h.dir q).symm, fun q hq => (h.lookup q hq).symm⟩

omit [DecidableEq K] in
theorem trans (h : Alike F d d') (h' : Alike F d' d'') : Alike F d d'' :=
  ⟨fun q => (h.dir q).trans (h'.dir q), fun q hq => (h.lookup q hq).trans (h'.lookup q hq)⟩

omit [DecidableEq K] in
/-- Changes elsewhere do not matter. -/
theorem of_agreeOff (h : AgreeOff S d d') (hdisj : Disjoint S F)
    (hdir : ∀ q, d.entry q = some .dir ↔ d'.entry q = some .dir) : Alike F d d' := by
  refine ⟨hdir, fun q hq => ?_⟩
  exact (h q (Set.disjoint_right.mp hdisj hq)).2.symm

omit [DecidableEq K] in
theorem file (h : Alike F d d') (hk : k ∈ F) (he : d.entry k = some (.file n)) :
    ∃ m, d'.entry k = some (.file m) ∧ d'.node m = d.node n := by
  have hlookup := (h.lookup k hk).symm.trans (lookup_of_entry he)
  rcases he' : d'.entry k with - | - | m
  · simp [Disk.lookup, he'] at hlookup
  · simp [Disk.lookup, he'] at hlookup
  · exact ⟨m, rfl, by simpa [Disk.lookup, he'] using hlookup⟩

omit [DecidableEq K] in
theorem nothing (h : Alike F d d') (hk : k ∈ F) (he : d.entry k = none) : d'.entry k = none := by
  rcases he' : d'.entry k with - | - | m
  · rfl
  · rw [(h.dir k).mpr he'] at he
    cases he
  · obtain ⟨n, hn, -⟩ := h.symm.file hk he'
    rw [hn] at he
    cases he

omit [DecidableEq K] in
theorem read_eq (h : Alike F d d') (hk : k ∈ F) : d.read k = d'.read k := by
  rcases he : d.entry k with - | - | n
  · simp only [read, he, h.nothing hk he]
  · simp only [read, he, (h.dir k).mp he]
  · obtain ⟨m, hm, hnode⟩ := h.file hk he
    simp only [read, he, hm, hnode]

omit [DecidableEq K] in
theorem present_eq (h : Alike F d d') (hk : k ∈ F) : d.present k = d'.present k := by
  rcases he : d.entry k with - | - | n
  · simp only [present, he, h.nothing hk he]
  · simp only [present, he, (h.dir k).mp he]
  · obtain ⟨m, hm, -⟩ := h.file hk he
    simp only [present, he, hm, Option.isSome_some]

omit [DecidableEq K] in
/-- Writing the files at one place. -/
theorem write (h : Alike F d d') (hk : d.entry k = some (.file n))
    (hk' : d'.entry k = some (.file m)) (x : δ) : Alike F (d.write n x) (d'.write m x) := by
  refine ⟨h.dir, fun q hq => ?_⟩
  by_cases hqk : q = k
  · subst hqk
    rw [lookup_of_entry (d := d.write n x) hk, lookup_of_entry (d := d'.write m x) hk',
      node_write_self, node_write_self]
  · rw [lookup_write_of_ne fun he => hqk (d.unlinked he hk),
      lookup_write_of_ne fun he => hqk (d'.unlinked he hk')]
    exact h.lookup q hq

/-- Opening for writing on both. -/
theorem create (h : Alike F d d') (hk : k ∈ F) (hc : d.create parent k x = .ok (d₁, n)) :
    ∃ d₁' m, d'.create parent k x = .ok (d₁', m) ∧ Alike F d₁ d₁' := by
  -- there is a file at `k` in both, or a directory above it in both
  obtain ⟨⟨d₁', m⟩, hc'⟩ : ∃ p, d'.create parent k x = .ok p := by
    rcases create_parent hc with ⟨i, hi⟩ | hparent
    · obtain ⟨j, hj, -⟩ := h.file hk hi
      exact ⟨_, create_of_entry hj⟩
    · exact create_isOk (fun he => create_ne_dir hc ((h.dir k).mpr he)) ((h.dir _).mp hparent)
  refine ⟨d₁', m, hc', fun q => ?_, fun q hq => ?_⟩
  · rw [create_dir_iff hc, create_dir_iff hc']
    exact h.dir q
  · obtain ⟨hentry, hnode, -, hlookup⟩ := create_ok hc
    obtain ⟨hentry', hnode', -, hlookup'⟩ := create_ok hc'
    by_cases hqk : q = k
    · subst hqk
      rw [lookup_of_entry hentry, lookup_of_entry hentry', hnode, hnode']
    · rw [hlookup q hqk, hlookup' q hqk]
      exact h.lookup q hq

theorem create_error {f : Failure} (h : Alike F d d') (hk : k ∈ F)
    (hc : d.create parent k x = .error f) : ∃ f', d'.create parent k x = .error f' := by
  rcases hc' : d'.create parent k x with f' | ⟨d₁', m⟩
  · exact ⟨f', rfl⟩
  · obtain ⟨_, _, hok, -⟩ := h.symm.create hk hc'
    rw [hc] at hok
    cases hok

/-- Renaming on both. -/
theorem rename (h : Alike F d d') (hk : k ∈ F) (hr : d.rename k k' = .ok d₁) :
    ∃ d₁', d'.rename k k' = .ok d₁' ∧ Alike F d₁ d₁' := by
  obtain ⟨n, hn⟩ := file_of_rename_ok hr
  obtain ⟨m, hm, hnode⟩ := h.file hk hn
  obtain ⟨d₁', hr'⟩ : ∃ d₁', d'.rename k k' = .ok d₁' :=
    rename_isOk hm fun he => (rename_source hr).2.1 ((h.dir k').mpr he)
  refine ⟨d₁', hr', fun q => ?_, fun q hq => ?_⟩
  · rw [rename_dir_iff hr, rename_dir_iff hr']
    exact h.dir q
  · obtain ⟨hentry, hnodes, -, hlookup⟩ := rename_ok hn hr
    obtain ⟨hentry', hnodes', -, hlookup'⟩ := rename_ok hm hr'
    -- the target has the datum of the source, the source has nothing
    by_cases hqk' : q = k'
    · subst hqk'
      rw [lookup_of_entry hentry, lookup_of_entry hentry', hnodes, hnodes', hnode]
    · by_cases hqk : q = k
      · subst hqk
        simp only [Disk.lookup, (rename_source hr).1 hqk', (rename_source hr').1 hqk']
      · rw [hlookup q hqk hqk', hlookup' q hqk hqk']
        exact h.lookup q hq

theorem rename_error {f : Failure} (h : Alike F d d') (hk : k ∈ F)
    (hr : d.rename k k' = .error f) : ∃ f', d'.rename k k' = .error f' := by
  rcases hr' : d'.rename k k' with f' | d₁'
  · exact ⟨f', rfl⟩
  · obtain ⟨_, hok, -⟩ := h.symm.rename hk hr'
    rw [hr] at hok
    cases hok

end Alike

end Disk

end Storage
