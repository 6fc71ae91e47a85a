/-
Harmonic/CarryOut.lean

A sync does what its plan says.

`Replicas.carryOut` is one action of a plan as a copy of a version from one side
to the other, and a plan is the fold of its actions.  The sync that carries the
plan out has all its transfers under way at once, in signatures, deltas and
file operations.  Here the second is shown to come to the first: at every moment
a side has changed at no path but those of the files it receives
(`held_of_not_received`), and once the transfers are done it holds, at every
path, what the plan says (`held_of_done`).
-/
import Harmonic.Lib.Utf8
import Harmonic.Received
import Harmonic.Replicas
import Harmonic.Walk

namespace Harmonic

open Storage (Disk Entry Failure)

namespace Setup

variable {S : Setup} {fs : Side → Fs} {s : Side → Host} {enc : Side} {new : Bytes}

/-- A transfer that is done, of which nothing failed and for which there was
room, has put the file in its place. -/
theorem installed_of_done (ht : S.Transfer fs enc new) (hquiet : S.Quiet enc.other)
    (hroom : S.Room (fs enc.other) enc.other) (h : S.Reachable fs s)
    (hcompleted : (s enc.other).completed = true)
    (hended : ∀ w ∈ (s enc.other).writers, w.ended = true) :
    S.file (s enc.other).fs enc.other = some new := by
  obtain ⟨-, hbefore | ⟨w, hafter⟩⟩ := session_invariant ht.regular ht.encodes h
  · rw [hbefore.completed] at hcompleted
    cases hcompleted
  · have hmem : w ∈ (s enc.other).writers := by simp [hafter.writers]
    rcases hpc : w.pc with - | inode | stamped | -
    · simpa [Writer.ended, hpc] using hended w hmem
    · simpa [Writer.ended, hpc] using hended w hmem
    · exact (file_of_renamed ht h hafter hcompleted hpc).2
    · exact absurd hpc (never_failed ht hquiet hroom h w hmem)

end Setup

namespace Sync

variable {ι : Type*} {S : ι → Setup} {fs : Side → Fs} {s s' : Sync ι} {t : Side → Host} {k : ι}
  {i enc : Side} {e : HostEvent} {new : Bytes}

/-! ### From a transfer alone to a transfer of many -/

/-- The file is the one that the transfer has alone. -/
theorem Matches.file_eq (hm : Matches S k s t) (i : Side) :
    (S k).file (s.fs i) i = (S k).file (t i).fs i :=
  congrArg (Option.map FileData.content) ((hm.alike i).lookup _ ((S k).abs_mem_footprint i))

theorem Matches.completed_eq (hm : Matches S k s t) (i : Side) :
    (t i).completed = (s.host k i).completed := by
  obtain ⟨n, hhost⟩ := hm.host i
  exact (congrArg Host.completed hhost).symm

theorem Matches.returned_eq (hm : Matches S k s t) (i : Side) :
    (t i).returned = (s.host k i).returned := by
  obtain ⟨n, hhost⟩ := hm.host i
  exact (congrArg Host.returned hhost).symm

theorem Matches.writers_ended (hm : Matches S k s t)
    (h : ∀ w ∈ (s.host k i).writers, w.ended = true) : ∀ w ∈ (t i).writers, w.ended = true := by
  obtain ⟨n, hhost⟩ := hm.host i
  intro w hw
  have hmem : w.reopen n ∈ (s.view k i).writers := by
    rw [hhost, Host.writers_recast]
    exact List.mem_map_of_mem hw
  rw [← Writer.ended_reopen n]
  exact h _ hmem

end Sync

/-! ### Temporary names -/

/-- The names of a text are texts. -/
theorem valid_of_ofString {p : String} {ns : List Name} (h : PathBuf.ofString p = .ofNames ns) :
    ∀ n ∈ ns, Utf8.Valid n.1 := by
  intro n hn
  have hmem : Component.normal n ∈ (PathBuf.ofString p).comps := by
    rw [h]
    exact List.mem_map_of_mem hn
  obtain ⟨piece, hpiece, hof⟩ := List.mem_filterMap.mp hmem
  have hvalid : Utf8.Valid piece :=
    (Utf8.valid_toUTF8 p).of_mem_splitOn (s := '/') (by decide) hpiece
  unfold Component.ofPiece at hof
  split at hof
  · cases Option.some.inj hof
  · split at hof
    · obtain rfl := Component.normal.inj (Option.some.inj hof)
      exact hvalid
    · cases hof

theorem Name.utf8Ext_of_valid {n : Name} (h : Utf8.Valid n.1) : n.Utf8Ext := by
  intro e he
  rcases fileStem_extension n.1 with ⟨hext, -⟩ | ⟨e', hext, -, heq⟩
  · rw [hext] at he
    cases he
  · obtain rfl : e' = e := Option.some.inj (hext.symm.trans he)
    rw [heq] at h
    exact Utf8.isSome_fromUTF8?.mpr (h.of_append_cons (s := '.') (by decide))

/-- The names of the temporary file. -/
def tmpNames (ns : List Name) (hne : ns ≠ []) : List Name := ns.dropLast ++ [(ns.getLast hne).tmp]

theorem fileName_ofNames {ns : List Name} (hne : ns ≠ []) :
    (PathBuf.ofNames ns).fileName = some (ns.getLast hne) := by
  simp only [PathBuf.fileName, PathBuf.ofNames, List.getLast?_map,
    List.getLast?_eq_some_getLast hne, Option.map_some]

theorem tmpFile_ofNames {ns : List Name} (hne : ns ≠ []) :
    tmpFile (.ofNames ns) = .ofNames (tmpNames ns hne) := by
  rw [tmpFile_eq (fileName_ofNames hne)]
  simp [PathBuf.ofNames, tmpNames, List.map_dropLast]

theorem fileName_below (root : PathBuf) {ns : List Name} (hne : ns ≠ []) :
    (root.below ns).fileName = some (ns.getLast hne) := fileName_join rfl rfl hne

theorem shadow_below (root : PathBuf) {ns : List Name} (hne : ns ≠ []) :
    (root.below ns).shadow = (root.below (tmpNames ns hne)).resolve := by
  rw [PathBuf.shadow, fileName_below root hne]
  simp only [resolve_below, Place.parent, follow_normal, tmpNames,
    List.dropLast_append_of_ne_nil hne, List.append_assoc]

theorem resolve_below_inj {root : PathBuf} {ns ns' : List Name}
    (h : (root.below ns).resolve = (root.below ns').resolve) : ns = ns' := by
  simpa [resolve_below] using h

/-- A plain path by its components. -/
theorem PathBuf.plain_iff {p : PathBuf} :
    p.Plain ↔ p.anchor = .none ∧ p.comps ≠ [] ∧ .parentDir ∉ p.comps := by
  constructor
  · rintro ⟨ns, hne, rfl⟩
    exact ⟨rfl, by simpa using hne, by simp⟩
  · obtain ⟨anchor, comps⟩ := p
    rintro ⟨rfl, hne, hdots⟩
    obtain ⟨ns, rfl⟩ : ∃ ns : List Name, comps = ns.map .normal := by
      refine Set.mem_range.mp (Set.range_list_map _ ▸ ?_ : comps ∈ Set.range (List.map _)) |>.imp
        fun _ h => h.symm
      intro c hc
      rcases c with - | n
      · exact absurd hc hdots
      · exact ⟨n, rfl⟩
    exact ⟨ns, by simpa using hne, rfl⟩

instance : DecidablePred PathBuf.Plain := fun _ => decidable_of_iff _ PathBuf.plain_iff.symm

/-! ### The transfers of a plan -/

/-- A plan for files below the sync path, each named once and none under the
temporary name of another. -/
structure Tidy (plan : List FileAction) : Prop where
  plain : ∀ a ∈ plan, (PathBuf.ofString a.path).Plain
  direction : ∀ a ∈ plan, ∃ d : TransferDirection, a.direction = d.toI32
  nodup : (plan.map fun a => PathBuf.ofString a.path).Nodup
  tmp : ∀ a ∈ plan, ∀ b ∈ plan, tmpFile (.ofString a.path) ≠ .ofString b.path

/-- Transfers between two parties, one for each action of a plan. -/
structure Executes (D : Crates) (config : Side → Config) (plan : List FileAction)
    (S : Fin plan.length → Setup) : Prop where
  action : ∀ k, (S k).action = plan[k]
  crates : ∀ k, (S k).crates = D
  config : ∀ k, (S k).config = config

section Plan

variable {D : Crates} {config : Side → Config} {plan : List FileAction}
  {S : Fin plan.length → Setup}

theorem Executes.target_eq (hex : Executes D config plan S) (k : Fin plan.length) :
    (S k).target = .ofString plan[k].path := by
  rw [Setup.target, hex.action]

theorem Executes.abs_eq (hex : Executes D config plan S) (k : Fin plan.length) (i : Side) :
    (S k).abs i = (config i).syncPath.join (.ofString plan[k].path) := by
  rw [Setup.abs, hex.target_eq, hex.config]

/-- What a transfer works on, by names. -/
theorem Executes.footprint_eq (hex : Executes D config plan S) {k : Fin plan.length} (i : Side)
    {ns : List Name} (hne : ns ≠ []) (hns : PathBuf.ofString plan[k].path = .ofNames ns) :
    (S k).footprint i = {((config i).syncPath.below (tmpNames ns hne)).resolve,
      ((config i).syncPath.below ns).resolve} := by
  rw [← shadow_below, Setup.footprint, hex.abs_eq, hns]
  rfl

theorem Executes.regular (hex : Executes D config plan S) (hclean : CleanSpec D.clean)
    (hplain : ∀ a ∈ plan, (PathBuf.ofString a.path).Plain) (k : Fin plan.length) :
    (S k).Regular := by
  refine ⟨?_, ?_⟩
  · rw [hex.target_eq]
    exact hplain _ (List.getElem_mem _)
  · rw [hex.crates]
    exact hclean

theorem Tidy.regular (htidy : Tidy plan) (hclean : CleanSpec D.clean)
    (hex : Executes D config plan S) : Sync.Regular S where
  regular := hex.regular hclean htidy.plain
  planned k := by
    rw [Setup.Planned, hex.action]
    exact htidy.direction _ (List.getElem_mem _)

/-- **The transfers of a tidy plan stay apart.** -/
theorem Tidy.apart (htidy : Tidy plan) (hex : Executes D config plan S) : Sync.Apart S := by
  intro k k' hk i
  have hpath : PathBuf.ofString plan[k].path ≠ PathBuf.ofString plan[k'].path := by
    have hinj := List.nodup_iff_injective_get.mp htidy.nodup
    intro he
    have hk' := @hinj ⟨k, by simp⟩ ⟨k', by simp⟩ (by simpa using he)
    exact hk (Fin.ext (by simpa using hk'))
  obtain ⟨ns, hne, hns⟩ : ∃ ns, ns ≠ [] ∧ PathBuf.ofString plan[k].path = .ofNames ns :=
    htidy.plain plan[k] (List.getElem_mem _)
  obtain ⟨ns', hne', hns'⟩ : ∃ ns, ns ≠ [] ∧ PathBuf.ofString plan[k'].path = .ofNames ns :=
    htidy.plain plan[k'] (List.getElem_mem _)
  have htmp := htidy.tmp plan[k] (List.getElem_mem _) plan[k'] (List.getElem_mem _)
  have htmp' := htidy.tmp plan[k'] (List.getElem_mem _) plan[k] (List.getElem_mem _)
  have hutf := valid_of_ofString hns
  have hutf' := valid_of_ofString hns'
  rw [hex.footprint_eq i hne hns, hex.footprint_eq i hne' hns', Set.disjoint_left]
  rw [hns, hns'] at hpath
  rw [hns, hns', tmpFile_ofNames hne] at htmp
  rw [hns, hns', tmpFile_ofNames hne'] at htmp'
  rintro l (rfl | rfl) (hl | hl)
  · -- two temporary names are different, since the names are texts
    refine hpath (congrArg _ (@resolve_below_inj (config i).syncPath _ _ ?_))
    refine shadow_inj (fileName_below _ hne) (fileName_below _ hne')
      (Name.utf8Ext_of_valid (hutf _ (List.getLast_mem hne)))
      (Name.utf8Ext_of_valid (hutf' _ (List.getLast_mem hne'))) ?_
    rw [shadow_below _ hne, shadow_below _ hne']
    exact hl
  · exact htmp (congrArg _ (resolve_below_inj hl))
  · exact htmp' (congrArg _ (resolve_below_inj hl).symm)
  · exact hpath (congrArg _ (resolve_below_inj hl))

/-! ### The plan and the sync -/

/-- What side `i` holds at the paths below its sync path. -/
def held (D : Crates) (config : Side → Config) (fs : Side → Fs) (i : Side) (p : PathBuf) :
    Option Digest :=
  ((fs i).content ((config i).syncPath.join p).resolve).map D.blake3

/-- The two sides as the planner sees them. -/
def replicas (D : Crates) (config : Side → Config) (fs : Side → Fs) : Replicas :=
  ⟨held D config fs .client, held D config fs .server⟩

/-- What one of them holds. -/
def Replicas.on (r : Replicas) : Side → PathBuf → Option Digest
  | .client => r.client
  | .server => r.server

@[simp] theorem on_replicas (D : Crates) (config : Side → Config) (fs : Side → Fs) (i : Side) :
    (replicas D config fs).on i = held D config fs i := by
  rcases i with - | - <;> rfl

/-- The sender has the file, nothing of the receiver fails by itself, and there
is room for the file there. -/
def Setup.Ready (S : Setup) (fs : Side → Fs) : Prop :=
  ∀ enc, S.Encodes enc → (∃ new, S.Transfer fs enc new) ∧ S.Quiet enc.other ∧
    S.Room (fs enc.other) enc.other

/-- The receiver of every file has handled `Complete`, and its writer has
ended. -/
def Sync.Done {ι : Type*} (S : ι → Setup) (s : Sync ι) : Prop :=
  ∀ k enc, (S k).Encodes enc → (s.host k enc.other).completed = true ∧
    ∀ w ∈ (s.host k enc.other).writers, w.ended = true

variable {fs : Side → Fs} {s : Sync (Fin plan.length)} {p : PathBuf} {i : Side}

theorem held_of_action (hex : Executes D config plan S) (k : Fin plan.length) (fs : Side → Fs)
    (i : Side) : held D config fs i (.ofString plan[k].path) = ((S k).file (fs i) i).map D.blake3 := by
  rw [held, Setup.file, hex.abs_eq]

/-- The places of the files that a side receives are those that the plan has it
receive. -/
theorem notMem_received (hplain : ∀ a ∈ plan, (PathBuf.ofString a.path).Plain)
    (hex : Executes D config plan S) (hp : p.Plain)
    (hkept : ∀ k, Sync.Receives (S k) i → PathBuf.ofString plan[k].path ≠ p)
    (htmp : ∀ a ∈ plan, tmpFile (.ofString a.path) ≠ p) :
    ((config i).syncPath.join p).resolve ∉ Sync.received S i := by
  obtain ⟨ns, hne, hns⟩ : ∃ ns, ns ≠ [] ∧ p = .ofNames ns := hp
  subst hns
  rintro ⟨k, hreceives, hl⟩
  obtain ⟨ns', hne', hns'⟩ : ∃ ns, ns ≠ [] ∧ PathBuf.ofString plan[k].path = .ofNames ns :=
    hplain plan[k] (List.getElem_mem _)
  rw [hex.footprint_eq i hne' hns'] at hl
  rcases hl with hl | hl
  · refine htmp plan[k] (List.getElem_mem _) ?_
    rw [hns', tmpFile_ofNames hne', resolve_below_inj hl]
  · refine hkept k hreceives ?_
    rw [hns', resolve_below_inj (Set.mem_singleton_iff.mp hl)]

/-- A file that a side does not receive is kept, at every moment and whatever
has failed. -/
theorem held_of_not_received (hplain : ∀ a ∈ plan, (PathBuf.ofString a.path).Plain)
    (hclean : CleanSpec D.clean)
    (hex : Executes D config plan S) (h : Sync.Reachable S fs s) (hp : p.Plain)
    (hkept : ∀ k, Sync.Receives (S k) i → PathBuf.ofString plan[k].path ≠ p)
    (htmp : ∀ a ∈ plan, tmpFile (.ofString a.path) ≠ p) :
    held D config s.fs i p = held D config fs i p := by
  have hout := notMem_received hplain hex hp hkept htmp
  have hagree := Sync.agreeOff (hex.regular hclean hplain) h i _ hout
  exact congrArg (fun x => (x.map FileData.content).map D.blake3) hagree.2

/-- The plan leaves it alone too. -/
theorem planned_of_not_received (htidy : Tidy plan) (hex : Executes D config plan S)
    (hkept : ∀ k, Sync.Receives (S k) i → PathBuf.ofString plan[k].path ≠ p) :
    (plan.foldl Replicas.carryOut (replicas D config fs)).on i p = held D config fs i p := by
  by_cases hmem : p ∈ plan.map fun a => PathBuf.ofString a.path
  · obtain ⟨a, ha, rfl⟩ := List.mem_map.mp hmem
    obtain ⟨k, hk, rfl⟩ := List.mem_iff_getElem.mp ha
    obtain ⟨d, hd⟩ := htidy.direction _ ha
    obtain ⟨hclient, hserver⟩ := Prod.mk.inj
      (foldl_carryOut_of_mem (r := replicas D config fs) htidy.nodup ha hd)
    have hnot : ¬ Sync.Receives (S ⟨k, hk⟩) i := fun hr => hkept ⟨k, hk⟩ hr rfl
    have hdir := (congrArg FileAction.direction (hex.action ⟨k, hk⟩)).trans hd
    -- a side that does not receive sends the file or skips it
    rcases i with - | -
    · refine hclient.trans ?_
      cases d with
      | download => exact absurd hdir hnot
      | upload | skip => rfl
    · refine hserver.trans ?_
      cases d with
      | upload => exact absurd hdir hnot
      | download | skip => rfl
  · obtain ⟨hclient, hserver⟩ := Prod.mk.inj
      (foldl_carryOut_of_notMem (r := replicas D config fs) hmem)
    rcases i with - | -
    · exact hclient
    · exact hserver

/-- The plan gives a receiver the sender's file. -/
theorem planned_of_received (htidy : Tidy plan) (hex : Executes D config plan S)
    {k : Fin plan.length} {new : Bytes} (hreceives : Sync.Receives (S k) i)
    (hnew : (S k).file (fs i.other) i.other = some new) :
    (plan.foldl Replicas.carryOut (replicas D config fs)).on i (.ofString plan[k].path) =
      some (D.blake3 new) := by
  have hheld := held_of_action hex k fs i.other
  rw [hnew, Option.map_some] at hheld
  have haction := congrArg FileAction.direction (hex.action k)
  rcases i with - | -
  · have hd : plan[k].direction = TransferDirection.download.toI32 := haction.symm.trans hreceives
    obtain ⟨hclient, -⟩ := Prod.mk.inj (foldl_carryOut_of_mem (r := replicas D config fs)
      htidy.nodup (List.getElem_mem k.isLt) hd)
    refine hclient.trans ?_
    exact congrArg (Option.or · _) hheld
  · have hd : plan[k].direction = TransferDirection.upload.toI32 := haction.symm.trans hreceives
    obtain ⟨-, hserver⟩ := Prod.mk.inj (foldl_carryOut_of_mem (r := replicas D config fs)
      htidy.nodup (List.getElem_mem k.isLt) hd)
    refine hserver.trans ?_
    exact congrArg (Option.or · _) hheld

/-- **A sync carries out its plan.**  However the transfers of a tidy plan are
interleaved, once they are done each side holds at every path what copying the
files one after another would have left there. -/
theorem held_of_done (htidy : Tidy plan) (hclean : CleanSpec D.clean)
    (hex : Executes D config plan S) (h : Sync.Reachable S fs s)
    (hready : ∀ k, (S k).Ready fs) (hdone : s.Done S) (hp : p.Plain)
    (htmp : ∀ a ∈ plan, tmpFile (.ofString a.path) ≠ p) (i : Side) :
    held D config s.fs i p = (plan.foldl Replicas.carryOut (replicas D config fs)).on i p := by
  by_cases hk : ∃ k, Sync.Receives (S k) i ∧ PathBuf.ofString plan[k].path = p
  · obtain ⟨k, hreceives, rfl⟩ := hk
    obtain ⟨⟨new, ht⟩, hquiet, hroom⟩ := hready k _ hreceives
    obtain ⟨hcompleted, hended⟩ := hdone k _ hreceives
    obtain ⟨t, hr, hm⟩ := Sync.solo_of_reaches (htidy.regular hclean hex) (htidy.apart hex) h k
    have hfile := Setup.installed_of_done ht hquiet hroom hr
      ((hm.completed_eq _).trans hcompleted) (hm.writers_ended hended)
    rw [← hm.file_eq, Side.other_other] at hfile
    rw [held_of_action hex, hfile, planned_of_received htidy hex hreceives ht.source]
    rfl
  · simp only [not_exists, not_and] at hk
    rw [held_of_not_received htidy.plain hclean hex h hp hk htmp, planned_of_not_received htidy hex hk]

end Plan

/-! ### An instance -/

/-- The client has a new `f`, the server a new `g`. -/
def newPlan : List FileAction :=
  [⟨"f", TransferDirection.upload.toI32, some ⟨10, 0⟩⟩,
    ⟨"g", TransferDirection.download.toI32, some ⟨10, 0⟩⟩]

/-- The transfers of a plan, without failures, over channels of capacity 1. -/
def planTransfers (plan : List FileAction) (k : Fin plan.length) : Setup where
  crates := sampleCrates
  config _ := sampleConfig
  action := plan[k]
  writerCapacity _ := 1
  channelCapacity _ := 1
  fault _ _ _ := false

theorem executes_planTransfers (plan : List FileAction) :
    Executes sampleCrates (fun _ => sampleConfig) plan (planTransfers plan) :=
  ⟨fun _ => rfl, fun _ => rfl, fun _ => rfl⟩

/-- The two transfers. -/
abbrev newTransfers : Fin newPlan.length → Setup := planTransfers newPlan

/-- A disk with the sync path and these files in it. -/
def filesBelow (files : List (String × Bytes)) : Fs :=
  files.foldl
    (fun d f => d.link (sampleConfig.syncPath.join (.ofString f.1)).resolve ⟨f.2, none⟩)
    (Disk.ofDirs (fun l => l.names = [] || l = sampleConfig.syncPath.resolve) ⟨[], none⟩)

def newDisks : Side → Fs
  | .client => filesBelow [("f", [1])]
  | .server => filesBelow [("g", [2])]

def newF : Fin newPlan.length := ⟨0, by decide⟩
def newG : Fin newPlan.length := ⟨1, by decide⟩

/-- One side's part of one transfer in a schedule. -/
def turnsOf (k : Fin newPlan.length) (i : Side) (es : List (Option HostEvent)) :
    List (Fin newPlan.length × Side × Option HostEvent) := es.map fun e => (k, i, e)

/-- Both transfers up to their renames, taking turns. -/
def newRun : List (Fin newPlan.length × Side × Option HostEvent) :=
  turnsOf newF .client [some .ok, some .ok] ++
  turnsOf newG .client [some .ok, some .ok, some .ok] ++
  turnsOf newF .server [none, some .ok, some .ok, some .ok] ++
  turnsOf newG .server [none, some .ok, some .ok] ++
  turnsOf newG .client [some .ok, some .ok, some .ok, some (.writer 0 .create)] ++
  turnsOf newF .server [some (.writer 0 .create), some .ok] ++
  turnsOf newG .server [none, some .ok, some .ok] ++
  turnsOf newF .client [none, some .ok, some .ok] ++
  turnsOf newG .client [none, some .ok, some .ok, some .ok, some (.writer 0 .recv)] ++
  turnsOf newF .server [none, some .ok, some .ok, some .ok, some (.writer 0 .recv)] ++
  turnsOf newF .client [some .ok] ++
  turnsOf newG .server [some .ok] ++
  turnsOf newF .server [none, some .ok, some .ok, some .ok] ++
  turnsOf newG .client [none, some .ok, some .ok, some .ok] ++
  turnsOf newF .server [some (.writer 0 .close)] ++
  turnsOf newG .client [some (.writer 0 .close)]

theorem tidy_newPlan : Tidy newPlan where
  plain := by decide
  direction := by
    simp only [newPlan, List.mem_cons, List.not_mem_nil, or_false, forall_eq_or_imp, forall_eq]
    exact ⟨⟨.upload, rfl⟩, ⟨.download, rfl⟩⟩
  nodup := by decide
  tmp := by decide

theorem regular_newTransfers : Sync.Regular newTransfers :=
  tidy_newPlan.regular (fun _ => rfl) (executes_planTransfers newPlan)

theorem apart_newTransfers : Sync.Apart newTransfers := tidy_newPlan.apart (executes_planTransfers newPlan)

/-- Which side has which file. -/
theorem encodes_newTransfers {k : Fin newPlan.length} {enc : Side}
    (henc : (newTransfers k).Encodes enc) :
    k = newF ∧ enc = .client ∨ k = newG ∧ enc = .server := by
  have hf : ∀ k, (newTransfers k).action.direction = TransferDirection.upload.toI32 → k = newF := by
    decide
  have hg : ∀ k, (newTransfers k).action.direction = TransferDirection.download.toI32 →
      k = newG := by
    decide
  rcases enc with - | -
  · exact .inl ⟨hf k henc, rfl⟩
  · exact .inr ⟨hg k henc, rfl⟩

/-- A state in which both transfers are done. -/
theorem exists_done : ∃ s, Sync.Reachable newTransfers newDisks s ∧ s.Done newTransfers := by
  have hrun : ((Lts.replay (Sync.act newTransfers) (Sync.start newDisks) newRun).any fun s =>
      ((s.host newF .server).completed && (s.host newF .server).writers.all (·.ended)) &&
        ((s.host newG .client).completed && (s.host newG .client).writers.all (·.ended))) = true := by
    decide
  obtain ⟨s, hs, hend⟩ := Sync.exists_of_replay hrun
  simp only [Bool.and_eq_true, List.all_eq_true] at hend
  refine ⟨s, hs, fun k enc henc => ?_⟩
  rcases encodes_newTransfers henc with ⟨rfl, rfl⟩ | ⟨rfl, rfl⟩
  · exact hend.1
  · exact hend.2

/-- `runs_alone` for the two transfers, both done. -/
theorem runs_alone_new : ∃ s : Sync (Fin newPlan.length), s.Done newTransfers ∧
    ∀ k, ∃ t, (newTransfers k).Reachable newDisks t ∧ Sync.Matches newTransfers k s t := by
  obtain ⟨s, hs, hdone⟩ := exists_done
  refine ⟨s, hdone, fun k => ?_⟩
  obtain ⟨t, ht, hm, -⟩ := Sync.runs_alone regular_newTransfers apart_newTransfers hs k
  exact ⟨t, ht, hm⟩

end Harmonic
