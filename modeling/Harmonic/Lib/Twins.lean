/-
Harmonic/Lib/Twins.lean

Disks that are the same at some places, with inode numbers of their own.

`Twins F R d d'` says that `d` and `d'` have the same entries at the places `F`,
if inode numbers are matched by `R`, that matched inodes carry the same data, and
that they are linked at the places `F` or nowhere.  Open files are matched like
others, linked or not.

What is done at the places `F` of one disk can be done on the other, and they
stay twins (`create`, `rename`, `write`).  What is done to one of them elsewhere
the other does not notice (`create_elsewhere`).
-/
import Harmonic.Lib.Disk

namespace Storage

variable {K δ : Type*}

/-- The same entry, up to the number of the inode. -/
inductive Entry.Twin (R : ℕ → ℕ → Prop) : Entry → Entry → Prop
  | dir : Twin R .dir .dir
  | file {n m : ℕ} (h : R n m) : Twin R (.file n) (.file m)

/-- The same entry, or none on both sides. -/
abbrev SameEntry (R : ℕ → ℕ → Prop) : Option Entry → Option Entry → Prop := Option.Rel (Entry.Twin R)

theorem SameEntry.mono {R R' : ℕ → ℕ → Prop} (hle : R ≤ R') {e e' : Option Entry}
    (h : SameEntry R e e') : SameEntry R' e e' := by
  rcases h with ⟨- | hR⟩ | -
  · exact .some .dir
  · exact .some (.file (hle _ _ hR))
  · exact .none

theorem SameEntry.symm {R : ℕ → ℕ → Prop} {e e' : Option Entry} (h : SameEntry R e e') :
    SameEntry (flip R) e' e := by
  rcases h with ⟨- | hR⟩ | -
  · exact .some .dir
  · exact .some (.file hR)
  · exact .none

/-- One more pair of inodes. -/
def extend (R : ℕ → ℕ → Prop) (n m : ℕ) : ℕ → ℕ → Prop := fun a b => R a b ∨ a = n ∧ b = m

theorem le_extend (R : ℕ → ℕ → Prop) (n m : ℕ) : R ≤ extend R n m := fun _ _ => .inl

namespace Disk

/-- The same tree at the places `F`, up to a matching of inodes. -/
structure Twins (F : Set K) (R : ℕ → ℕ → Prop) (d d' : Disk K δ) : Prop where
  entry : ∀ q ∈ F, SameEntry R (d.entry q) (d'.entry q)
  node : ∀ {n m}, R n m → d.node n = d'.node m
  unique : Relator.BiUnique R
  known : ∀ {n m}, R n m → n < d.nextInode ∧ m < d'.nextInode
  within : ∀ {n m q}, R n m → d.entry q = some (.file n) ∨ d'.entry q = some (.file m) → q ∈ F

variable {F : Set K} {R R' : ℕ → ℕ → Prop} {d d' d₁ d₁' : Disk K δ} {k k' q : K} {n m : ℕ} {x : δ}

/-- Disks with the same directories and data at the places `F` are twins. -/
theorem exists_twins (hdir : ∀ q ∈ F, d.entry q = some .dir ↔ d'.entry q = some .dir)
    (hlookup : ∀ q ∈ F, d.lookup q = d'.lookup q) : ∃ R, Twins F R d d' := by
  refine ⟨fun n m => ∃ q ∈ F, d.entry q = some (.file n) ∧ d'.entry q = some (.file m),
    fun q hq => ?_, ?_, ⟨?_, ?_⟩, ?_, ?_⟩
  · have hdir := hdir q hq
    have hlookup := hlookup q hq
    rcases he : d.entry q with - | - | n <;> rcases he' : d'.entry q with - | - | m <;>
      simp only [lookup, he, he', reduceCtorEq, iff_false, not_true_eq_false, false_iff] at hdir hlookup
    · exact .none
    · exact .some .dir
    · exact .some (.file ⟨q, hq, he, he'⟩)
  · rintro n m ⟨q, hq, he, he'⟩
    have hlookup := hlookup q hq
    rw [lookup_of_entry he, lookup_of_entry he'] at hlookup
    exact Option.some.inj hlookup
  · rintro n n' m ⟨q, -, he, he'⟩ ⟨q', -, hf, hf'⟩
    obtain rfl := d'.unlinked he' hf'
    simpa using he.symm.trans hf
  · rintro n m m' ⟨q, -, he, he'⟩ ⟨q', -, hf, hf'⟩
    obtain rfl := d.unlinked he hf
    simpa using he'.symm.trans hf'
  · rintro n m ⟨q, -, he, he'⟩
    exact ⟨d.fresh he, d'.fresh he'⟩
  · rintro n m q ⟨q', hq', he, he'⟩ (h | h)
    · exact d.unlinked h he ▸ hq'
    · exact d'.unlinked h he' ▸ hq'

namespace Twins

variable (h : Twins F R d d')
include h

theorem symm : Twins F (flip R) d' d where
  entry q hq := (h.entry q hq).symm
  node hR := (h.node hR).symm
  unique := ⟨fun _ _ _ ha hb => h.unique.2 ha hb, fun _ _ _ ha hb => h.unique.1 ha hb⟩
  known hR := (h.known hR).symm
  within hR he := h.within hR he.symm

theorem file (hq : q ∈ F) (he : d.entry q = some (.file n)) :
    ∃ m, d'.entry q = some (.file m) ∧ R n m := by
  have hrel := h.entry q hq
  rw [he] at hrel
  generalize d'.entry q = e' at hrel
  rcases hrel with ⟨⟨⟩⟩
  exact ⟨_, rfl, ‹_›⟩

theorem dir_iff (hq : q ∈ F) : d.entry q = some .dir ↔ d'.entry q = some .dir := by
  have hrel := h.entry q hq
  generalize d.entry q = e at hrel
  generalize d'.entry q = e' at hrel
  rcases hrel with ⟨⟨⟩⟩ | - <;> simp

theorem none_iff (hq : q ∈ F) : d.entry q = none ↔ d'.entry q = none := by
  have hrel := h.entry q hq
  generalize d.entry q = e at hrel
  generalize d'.entry q = e' at hrel
  rcases hrel with ⟨⟨⟩⟩ | - <;> simp

theorem read_eq (hq : q ∈ F) : d.read q = d'.read q := by
  rcases he : d.entry q with - | - | n
  · simp only [read, he, (h.none_iff hq).mp he]
  · simp only [read, he, (h.dir_iff hq).mp he]
  · obtain ⟨m, he', hR⟩ := h.file hq he
    simp only [read, he, he', h.node hR]

/-- Matched files are written. -/
theorem write (hR : R n m) (x : δ) : Twins F R (d.write n x) (d'.write m x) where
  entry := h.entry
  node {a b} hab := by
    by_cases ha : a = n
    · obtain rfl := ha
      obtain rfl := h.unique.2 hab hR
      rw [node_write_self, node_write_self]
    · have hb : b ≠ m := by
        rintro rfl
        exact ha (h.unique.1 hab hR)
      simp only [Disk.write, Function.update_of_ne ha, Function.update_of_ne hb]
      exact h.node hab
  unique := h.unique
  known := h.known
  within := h.within

/-- A file that is not matched is written. -/
theorem write_elsewhere (hn : ∀ m, ¬ R n m) (x : δ) : Twins F R (d.write n x) d' where
  entry := h.entry
  node {a b} hab := by
    have ha : a ≠ n := by
      rintro rfl
      exact hn b hab
    simp only [Disk.write, Function.update_of_ne ha]
    exact h.node hab
  unique := h.unique
  known := h.known
  within := h.within

variable [DecidableEq K]

/-- New files at a place that was free. -/
theorem link (hk : k ∈ F) (x : δ) :
    Twins F (extend R d.nextInode d'.nextInode) (d.link k x) (d'.link k x) where
  entry q hq := by
    by_cases hqk : q = k
    · subst hqk
      simp only [Disk.link, Function.update_self]
      exact .some (.file (.inr ⟨rfl, rfl⟩))
    · simp only [Disk.link, Function.update_of_ne hqk]
      exact (h.entry q hq).mono (le_extend _ _ _)
  node {a b} hab := by
    rcases hab with hab | ⟨rfl, rfl⟩
    · obtain ⟨ha, hb⟩ := h.known hab
      simp only [Disk.link, Function.update_of_ne ha.ne, Function.update_of_ne hb.ne]
      exact h.node hab
    · simp only [Disk.link, Function.update_self]
  unique := by
    constructor
    · rintro a a' b (ha | ⟨rfl, rfl⟩) (ha' | ⟨rfl, hb⟩)
      · exact h.unique.1 ha ha'
      · exact absurd hb (h.known ha).2.ne
      · exact absurd rfl (h.known ha').2.ne
      · rfl
    · rintro a b b' (hb | ⟨rfl, rfl⟩) (hb' | ⟨ha, rfl⟩)
      · exact h.unique.2 hb hb'
      · exact absurd ha (h.known hb).1.ne
      · exact absurd rfl (h.known hb').1.ne
      · rfl
  known {a b} hab := by
    rcases hab with hab | ⟨rfl, rfl⟩
    · exact ⟨(h.known hab).1.trans (Nat.lt_succ_self _), (h.known hab).2.trans (Nat.lt_succ_self _)⟩
    · exact ⟨Nat.lt_succ_self _, Nat.lt_succ_self _⟩
  within {a b q} hab he := by
    by_cases hqk : q = k
    · exact hqk ▸ hk
    · simp only [Disk.link, Function.update_of_ne hqk] at he
      rcases hab with hab | ⟨rfl, rfl⟩
      · exact h.within hab he
      · rcases he with he | he
        · exact absurd (d.fresh he) (lt_irrefl _)
        · exact absurd (d'.fresh he) (lt_irrefl _)

/-- Opening for writing on both. -/
theorem create {parent : K → K} (hk : k ∈ F) (hp : parent k ∈ F)
    (hc : d.create parent k x = .ok (d₁, n)) :
    ∃ R' d₁' m, d'.create parent k x = .ok (d₁', m) ∧ Twins F R' d₁ d₁' ∧ R ≤ R' ∧ R' n m := by
  unfold Disk.create at hc ⊢
  split at hc
  · rename_i i hi
    obtain ⟨rfl, rfl⟩ := Prod.mk.inj (Except.ok.inj hc)
    obtain ⟨j, hj, hR⟩ := h.file hk hi
    simp only [hj]
    exact ⟨R, _, j, rfl, h.write hR x, le_rfl, hR⟩
  · cases hc
  · rename_i hnone
    split at hc
    · rename_i hdir
      obtain ⟨rfl, rfl⟩ := Prod.mk.inj (Except.ok.inj hc)
      simp only [(h.none_iff hk).mp hnone, (h.dir_iff hp).mp hdir, if_true]
      exact ⟨_, _, _, rfl, h.link hk x, le_extend _ _ _, .inr ⟨rfl, rfl⟩⟩
    · cases hc

theorem create_error {parent : K → K} {f : Failure} (hk : k ∈ F) (hp : parent k ∈ F)
    (hc : d.create parent k x = .error f) : ∃ f', d'.create parent k x = .error f' := by
  rcases hc' : d'.create parent k x with f' | ⟨d₁', m⟩
  · exact ⟨f', rfl⟩
  · obtain ⟨_, _, _, hok, -⟩ := h.symm.create hk hp hc'
    rw [hc] at hok
    cases hok

/-- Opening a file at another place of one disk. -/
theorem create_elsewhere {parent : K → K} (hk : k ∉ F)
    (hc : d.create parent k x = .ok (d₁, n)) : Twins F R d₁ d' := by
  unfold Disk.create at hc
  split at hc
  · rename_i i hi
    obtain ⟨rfl, rfl⟩ := Prod.mk.inj (Except.ok.inj hc)
    exact h.write_elsewhere (fun m hR => hk (h.within hR (.inl hi))) x
  · cases hc
  · split at hc
    · obtain ⟨rfl, rfl⟩ := Prod.mk.inj (Except.ok.inj hc)
      have hne : ∀ q ∈ F, q ≠ k := fun q hq hqk => hk (hqk ▸ hq)
      refine ⟨fun q hq => ?_, fun {a b} hab => ?_, h.unique, fun {a b} hab => ?_,
        fun {a b q} hab he => ?_⟩
      · simp only [Disk.link, Function.update_of_ne (hne q hq)]
        exact h.entry q hq
      · simp only [Disk.link, Function.update_of_ne (h.known hab).1.ne]
        exact h.node hab
      · exact ⟨(h.known hab).1.trans (Nat.lt_succ_self _), (h.known hab).2⟩
      · by_cases hqk : q = k
        · -- the new file is not matched
          subst hqk
          rcases he with he | he
          · simp only [Disk.link, Function.update_self, Option.some.injEq, Entry.file.injEq] at he
            exact absurd he.symm (h.known hab).1.ne
          · exact h.within hab (.inr he)
        · simp only [Disk.link, Function.update_of_ne hqk] at he
          exact h.within hab he
    · cases hc

/-- Renaming on both. -/
theorem rename (hk : k ∈ F) (hk' : k' ∈ F) (hr : d.rename k k' = .ok d₁) :
    ∃ d₁', d'.rename k k' = .ok d₁' ∧ Twins F R d₁ d₁' := by
  obtain ⟨n, hn⟩ := file_of_rename_ok hr
  obtain ⟨m, hm, hR⟩ := h.file hk hn
  obtain ⟨hsource, htarget, hnext⟩ := rename_source hr
  obtain ⟨d₁', hr'⟩ := rename_isOk hm fun he => htarget ((h.dir_iff hk').mpr he)
  obtain ⟨hsource', -, hnext'⟩ := rename_source hr'
  obtain ⟨hentry, hnodes, hold, -⟩ := rename_ok hn hr
  obtain ⟨hentry', hnodes', hold', -⟩ := rename_ok hm hr'
  refine ⟨d₁', hr', fun q hq => ?_, fun {a b} hab => ?_, h.unique, fun {a b} hab => ?_,
    fun {a b q} hab he => ?_⟩
  · by_cases hqk' : q = k'
    · subst hqk'
      rw [hentry, hentry']
      exact .some (.file hR)
    · by_cases hqk : q = k
      · subst hqk
        rw [hsource hqk', hsource' hqk']
        exact .none
      · rw [hold q hqk hqk', hold' q hqk hqk']
        exact h.entry q hq
  · rw [hnodes, hnodes']
    exact h.node hab
  · rw [hnext, hnext']
    exact h.known hab
  · by_cases hqk' : q = k'
    · exact hqk' ▸ hk'
    · by_cases hqk : q = k
      · exact hqk ▸ hk
      · rw [hold q hqk hqk', hold' q hqk hqk'] at he
        exact h.within hab he

theorem rename_error {f : Failure} (hk : k ∈ F) (hk' : k' ∈ F) (hr : d.rename k k' = .error f) :
    ∃ f', d'.rename k k' = .error f' := by
  rcases hr' : d'.rename k k' with f' | d₁'
  · exact ⟨f', rfl⟩
  · obtain ⟨_, hok, -⟩ := h.symm.rename hk hk' hr'
    rw [hr] at hok
    cases hok

end Twins

end Disk

end Storage
