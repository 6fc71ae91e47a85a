/-
Harmonic/Secrecy.lean

What clients can learn of a server's disk.

Two servers whose disks are the same under the sync path, and as different as
one likes elsewhere, cannot be told apart: when the same is asked of them, they
do the same and send the same messages, whatever users write outside the sync
path of the one or the other in the meantime (`Server.secret`).

The two are kept in step by a matching of their inodes (`Disk.Twins`), which
grows when a writer creates a file.  That tasks work under the sync path only is
`Server.Enclosed`.
-/
import Harmonic.Lib.Twins
import Harmonic.ServerConfinement

namespace Harmonic

open Storage (Disk Failure)

/-! ### Tasks with matched files -/

/-- The same point of a task, with open files that are matched. -/
inductive WriterPc.Twin (R : ℕ → ℕ → Prop) : WriterPc → WriterPc → Prop
  | starting : Twin R .starting .starting
  | writing {n m : ℕ} (h : R n m) : Twin R (.writing n) (.writing m)
  | renamed (stamped : Bool) : Twin R (.renamed stamped) (.renamed stamped)
  | failed : Twin R .failed .failed

/-- The same task, with an open file that is matched. -/
structure Writer.Twin (R : ℕ → ℕ → Prop) (w w' : Writer) : Prop where
  pc : WriterPc.Twin R w.pc w'.pc
  rest : w' = { w with pc := w'.pc }

/-- The same host, with writers that are matched. -/
structure Host.Twin (R : ℕ → ℕ → Prop) (h h' : Host) : Prop where
  writers : List.Forall₂ (Writer.Twin R) h.writers h'.writers
  rest : h' = { h with fs := h'.fs, writers := h'.writers }

variable {R R' : ℕ → ℕ → Prop} {F : Set Place}

theorem WriterPc.Twin.mono (hle : R ≤ R') {pc pc' : WriterPc} (h : Twin R pc pc') :
    Twin R' pc pc' := by
  cases h with
  | starting => exact .starting
  | writing h => exact .writing (hle _ _ h)
  | renamed b => exact .renamed b
  | failed => exact .failed

theorem Host.Twin.mono (hle : R ≤ R') {h h' : Host} (hh : Twin R h h') : Twin R' h h' :=
  ⟨hh.writers.imp fun _ _ hw => ⟨hw.pc.mono hle, hw.rest⟩, hh.rest⟩

namespace Writer

variable {fs fs' fs₁ : Fs} {w w' w₁ : Writer} {closed : Bool} {e : WriterEvent}

theorem twin_spawn (path : PathBuf) (cache : BlockCache) (ts : Timestamp) :
    (spawn path cache ts).Twin R (spawn path cache ts) := ⟨.starting, rfl⟩

theorem Twin.push (hw : w.Twin R w') (d : Delta) :
    Twin R { w with queued := w.queued ++ [d] } { w' with queued := w'.queued ++ [d] } := by
  obtain ⟨hpc, hrest⟩ := hw
  refine ⟨hpc, ?_⟩
  rw [hrest]

theorem Twin.ended_eq (hw : w.Twin R w') : w'.ended = w.ended := by
  obtain ⟨path, cache, ts, queued, taken, pc⟩ := w
  obtain ⟨path', cache', ts', queued', taken', pc'⟩ := w'
  obtain ⟨hpc, -⟩ := hw
  cases hpc <;> rfl

/-- **Step of a writer.**  What it does on one disk it does on the other. -/
theorem Twin.step (hw : w.Twin R w') (h : Disk.Twins F R fs fs') (htmp : w.tmp ∈ F)
    (hparent : w.tmp.parent ∈ F) (hdest : w.dest ∈ F)
    (hstep : w.step closed fs e = some (fs₁, w₁)) :
    ∃ R' fs₁' w₁', w'.step closed fs' e = some (fs₁', w₁') ∧ Disk.Twins F R' fs₁ fs₁' ∧
      R ≤ R' ∧ w₁.Twin R' w₁' := by
  obtain ⟨hpc, hrest⟩ := hw
  generalize w'.pc = pc' at hpc hrest
  subst hrest
  cases move_of_step hstep with
  | create fs₁ inode hat hcreate hname =>
    rw [hat] at hpc
    cases hpc
    obtain ⟨R', fs₁', m, hcreate', htwins, hle, hR⟩ := h.create htmp hparent hcreate
    exact ⟨R', fs₁', _, step_create rfl hname hcreate', htwins, hle, .writing hR, rfl⟩
  | createErr x hat hcreate =>
    rw [hat] at hpc
    cases hpc
    obtain ⟨x', hcreate'⟩ := createFile_error hcreate fun x => h.create_error htmp hparent
    exact ⟨R, fs', _, step_createErr rfl hcreate', h, le_rfl, .failed, rfl⟩
  | recv inode d content hat hqueue happly =>
    rw [hat] at hpc
    cases hpc with
    | writing hR =>
      rw [h.node hR] at happly
      refine ⟨R, _, _, step_recv rfl hqueue happly, h.write hR _, le_rfl, ?_, rfl⟩
      show WriterPc.Twin R w.pc _
      rw [hat]
      exact .writing hR
  | recvErr inode d halt hat hqueue happly =>
    rw [hat] at hpc
    cases hpc with
    | writing hR =>
      rw [h.node hR] at happly
      exact ⟨R, fs', _, step_recvErr rfl hqueue happly, h, le_rfl, .failed, rfl⟩
  | close fs₁ inode hat hqueue hclosed hrename =>
    rw [hat] at hpc
    cases hpc
    obtain ⟨fs₁', hrename', htwins⟩ := h.rename htmp hdest hrename
    exact ⟨R, fs₁', _, step_close rfl hqueue hclosed hrename', htwins, le_rfl, .renamed _, rfl⟩
  | closeErr x inode hat hqueue hclosed hrename =>
    rw [hat] at hpc
    cases hpc
    obtain ⟨x', hrename'⟩ := h.rename_error htmp hdest hrename
    exact ⟨R, fs', _, step_closeErr rfl hqueue hclosed hrename', h, le_rfl, .failed, rfl⟩
  | stamp inode hat hentry =>
    rw [hat] at hpc
    cases hpc
    obtain ⟨m, hentry', hR⟩ := h.file hdest hentry
    refine ⟨R, _, _, step_stamp rfl hentry', ?_, le_rfl, .renamed _, rfl⟩
    rw [h.node hR]
    exact h.write hR _
  | stampErr e hat he =>
    rw [hat] at hpc
    cases hpc
    rcases he with rfl | rfl
    · by_cases hfile : ∃ n, fs.entry w.dest = some (.file n)
      · -- the file had the time already
        obtain ⟨n, hn⟩ := hfile
        obtain ⟨m, hm, hR⟩ := h.file hdest hn
        obtain ⟨hfs, -⟩ := Prod.mk.inj (Option.some.inj ((step_stamp hat hn).symm.trans hstep))
        refine ⟨R, _, _, step_stamp rfl hm, ?_, le_rfl, .renamed _, rfl⟩
        have hwrite := h.write hR ⟨(fs.node n).content, some w.modifiedTs⟩
        rw [hfs] at hwrite
        rw [← h.node hR]
        exact hwrite
      · have hfile' : ∀ m, fs'.entry w.dest ≠ some (.file m) := by
          intro m hm
          obtain ⟨n, hn, -⟩ := h.symm.file hdest hm
          exact hfile ⟨n, hn⟩
        exact ⟨R, fs', _, step_stampErr rfl hfile', h, le_rfl, .renamed _, rfl⟩
    · exact ⟨R, fs', _, rfl, h, le_rfl, .renamed _, rfl⟩
  | fault hat =>
    rcases hat with hat | ⟨inode, hat⟩
    · rw [hat] at hpc
      cases hpc
      exact ⟨R, fs', _, rfl, h, le_rfl, .failed, rfl⟩
    · simp only [step, hat, Option.ite_none_right_eq_some] at hstep
      rw [hat] at hpc
      cases hpc
      exact ⟨R, fs', _, if_pos hstep.1, h, le_rfl, .failed, rfl⟩

end Writer

/-! ### Lists of writers -/

section Lists

variable {ws ws' : List Writer} {w w' : Writer}

theorem getElem?_twin (h : List.Forall₂ (Writer.Twin R) ws ws') {k : ℕ} (hk : ws[k]? = some w) :
    ∃ w', ws'[k]? = some w' ∧ w.Twin R w' := by
  induction h generalizing k with
  | nil => cases hk
  | cons hw _ ih =>
    rcases k with - | k
    · exact ⟨_, rfl, Option.some.inj hk ▸ hw⟩
    · exact ih hk

theorem set_twin (h : List.Forall₂ (Writer.Twin R) ws ws') (k : ℕ) (hw : w.Twin R w') :
    List.Forall₂ (Writer.Twin R) (ws.set k w) (ws'.set k w') := by
  induction h generalizing k with
  | nil => exact .nil
  | cons hv htail ih =>
    rcases k with - | k
    · exact .cons hw htail
    · exact .cons hv (ih k)

end Lists

/-! ### Tasks of two servers -/

namespace Host

variable {D : Crates} {config : Config} {action : FileAction} {cap : ℕ} {h h' h₁ : Host}
  {e : HostEvent}

theorem Twin.spawnWriter (hh : h.Twin R h') (path : PathBuf) (cache : BlockCache) (ts : Timestamp)
    (pc : Pc) : Twin R (h.spawnWriter path cache ts pc) (h'.spawnWriter path cache ts pc) := by
  obtain ⟨hw, hrest⟩ := hh
  refine ⟨List.rel_append hw (.cons (Writer.twin_spawn path cache ts) .nil), ?_⟩
  have hlen := hw.length_eq
  generalize h'.fs = f, h'.writers = ws at hw hrest hlen
  subst hrest
  simp only [Host.spawnWriter, hlen]

/-- **Step of a task.**  What it does on one disk it does on the other. -/
theorem Twin.step (hh : h.Twin R h') (hd : Disk.Twins F R h.fs h'.fs)
    (hat : ServesAt config h.pc)
    (hread : ∀ p, h.readsNext D config action = some p → p.resolve ∈ F)
    (hwriters : ∀ w ∈ h.writers, w.tmp ∈ F ∧ w.tmp.parent ∈ F ∧ w.dest ∈ F)
    (hstep : h.step D config action cap e = some h₁) :
    ∃ R' h₁', h'.step D config action cap e = some h₁' ∧ Disk.Twins F R' h₁.fs h₁'.fs ∧
      R ≤ R' ∧ h₁.Twin R' h₁' := by
  have hspawn := hh.spawnWriter
  obtain ⟨hw, hrest⟩ := hh
  generalize h'.fs = f, h'.writers = ws at hw hrest hd
  subst hrest
  -- where the writers stay as they are
  have hsame : ∀ {e : HostEvent} {h₁ : Host}, h₁.fs = h.fs → h₁.writers = h.writers →
      ({ h with fs := f, writers := ws } : Host).step D config action cap e =
        some { h₁ with fs := f, writers := ws } →
      ∃ R' h₁', ({ h with fs := f, writers := ws } : Host).step D config action cap e = some h₁' ∧
        Disk.Twins F R' h₁.fs h₁'.fs ∧ R ≤ R' ∧ h₁.Twin R' h₁' :=
    fun hfs hws hs => ⟨R, _, hs, hfs ▸ hd, le_rfl, hws ▸ hw, rfl⟩
  cases move_of_step hstep with
  | handle e read payload hpc he =>
    have hreads : ∀ p, h.readsNext D config action = some p → f.readFile p = h.fs.readFile p := by
      intro p hp
      simp only [Fs.readFile, hd.read_eq (hread p hp)]
    have hrun := handleSyncPayload_congr f.readFile hpc hreads
    rcases he with ⟨rfl, rfl⟩ | ⟨rfl, rfl⟩
    · exact hsame rfl rfl (by simp only [Host.step, stepOk, hpc, handle, hrun])
    · exact hsame rfl rfl (by simp only [Host.step, stepFail, hpc, handle])
  | send m es r hpc => exact hsame rfl rfl (by simp only [Host.step, stepOk, hpc, perform, send])
  | sendLost m es r hpc => exact hsame rfl rfl (by simp only [Host.step, stepFail, hpc, hangUp])
  | forwardNowhere d es r hpc htx =>
    exact hsame rfl rfl (by simp only [Host.step, stepOk, hpc, perform, Host.forward, htx])
  | forwardLost d es r k w hpc htx hget hended =>
    obtain ⟨w', hget', hww⟩ := getElem?_twin hw hget
    refine hsame rfl rfl ?_
    simp only [Host.step, stepOk, hpc, perform, Host.forward, htx, hget', hww.ended_eq, hended,
      if_true, hangUp]
  | forward d es r k w hpc htx hget hended hcap =>
    obtain ⟨w', hget', hww⟩ := getElem?_twin hw hget
    have hqueue : w'.queue = w.queue := by rw [hww.rest]; rfl
    refine ⟨R, { h with pc := .running es r, fs := f, writers := ws.set k _ }, ?_, hd, le_rfl,
      set_twin hw k (hww.push d), rfl⟩
    simp only [Host.step, stepOk, hpc, perform, Host.forward, htx, hget', hww.ended_eq, hended,
      hqueue, if_pos hcap, Bool.false_eq_true, if_false]
  | spawn path cache ts es r hpc =>
    refine ⟨R, Host.spawnWriter { h with fs := f, writers := ws } path cache ts _, ?_, hd, le_rfl,
      hspawn path cache ts _⟩
    simp only [Host.step, stepOk, hpc, perform]
  | finishContinued hpc | finishCompleted hpc | finishErr err hpc | finishPanic hpc
  | finishRunning hpc =>
    exact hsame rfl rfl (by simp only [Host.step, stepOk, hpc, finish, hangUp])
  | wake hpc => exact hsame rfl rfl (by simp only [Host.step, stepOk, hpc, hangUp])
  | recv m payload hpc hm | recvNothing m hpc hm =>
    exact hsame rfl rfl (by simp only [Host.step, hpc, hm])
  | recvEnd hpc | recvErr hpc => exact hsame rfl rfl (by simp only [Host.step, hpc, hangUp])
  | writer k ev w w₁ fs₁ hget hev =>
    obtain ⟨w', hget', hww⟩ := getElem?_twin hw hget
    obtain ⟨htmp, hparent, hdest⟩ := hwriters w (List.mem_of_getElem? hget)
    obtain ⟨R', fs₁', w₁', hev', htwins, hle, hww₁⟩ := hww.step hd htmp hparent hdest hev
    have hothers := hw.imp fun _ _ hv => (⟨hv.pc.mono hle, hv.rest⟩ : Writer.Twin R' _ _)
    refine ⟨R', { h with fs := fs₁', writers := ws.set k w₁' }, ?_, htwins, hle,
      set_twin hothers k hww₁, rfl⟩
    simp only [Host.step, stepWriter, hget', hev', Option.map_some]
  | connect hpc | sendAction hpc | sigCheck ev exist hpc | sigRead ev read sigs cache hpc
  | sigReadErr ev read err hpc | sigSend sigs hpc | sigLost sigs hpc | writerCheck ev exist hpc
  | writerRead ev read sigs cache hpc | writerReadErr ev read err hpc | writerSpawn cache hpc =>
    -- a server is in its loop from the start
    rw [hpc] at hat
    exact hat.elim
  | refused hpc | readPanic ev read hpc =>
    rcases hpc with hpc | hpc <;> rw [hpc] at hat <;> exact hat.elim

end Host

/-! ### Two servers -/

/-- The directory of what lies below `root` is under it. -/
theorem Place.Inside.under_parent {root l : Place} (h : root.Inside l) : root.Under l.parent := by
  obtain ⟨⟨habs, hups, ns, hns⟩, hne⟩ := h
  have hnil : ns ≠ [] := by
    rintro rfl
    obtain ⟨a, u, names⟩ := root
    exact hne (Place.mk.injEq .. ▸ ⟨habs, hups, by simpa using hns.symm⟩)
  refine ⟨habs, hups, ns.dropLast, ?_⟩
  rw [Place.parent, ← hns, List.dropLast_append_of_ne_nil hnil]

/-- Not a write of a user elsewhere than under `root`. -/
def ServerEvent.under {ι : Type*} (root : Place) : ServerEvent ι → Bool
  | .task .. => true
  | .user l _ => root.Under l

namespace Server

variable {ι : Type*} {D : Crates} {config : Config} {action : FileAction} {cap : ℕ}
  {fs₀ fs₁ fs₂ : Fs} {s s' t : Server ι} {e : ServerEvent ι} {es : List (ServerEvent ι)}

/-- The same servers, but for what is not under the sync path. -/
def Twin (config : Config) (s t : Server ι) : Prop :=
  ∃ R, Disk.Twins {l | config.syncPath.resolve.Under l} R s.fs t.fs ∧
    ∀ i, (s.task i).Twin R (t.task i)

theorem Twin.task (h : Twin config s t) (i : ι) :
    (s.task i).sent = (t.task i).sent ∧ (s.task i).pc = (t.task i).pc := by
  obtain ⟨R, -, htasks⟩ := h
  rw [(htasks i).rest]
  exact ⟨rfl, rfl⟩

theorem Twin.lookup_eq (h : Twin config s t) {l : Place} (hl : config.syncPath.resolve.Under l) :
    s.fs.lookup l = t.fs.lookup l := by
  obtain ⟨R, hd, -⟩ := h
  have hread := hd.read_eq hl
  rcases he : s.fs.entry l with - | - | n <;> rcases he' : t.fs.entry l with - | - | m <;>
    simp_all [Disk.read, Disk.lookup]

theorem twin_start (hdir : ∀ l, config.syncPath.resolve.Under l →
      (fs₁.entry l = some .dir ↔ fs₂.entry l = some .dir))
    (hlookup : ∀ l, config.syncPath.resolve.Under l → fs₁.lookup l = fs₂.lookup l) :
    Twin config (start fs₁ : Server ι) (start fs₂) := by
  obtain ⟨R, hR⟩ := Disk.exists_twins (F := {l | config.syncPath.resolve.Under l}) hdir hlookup
  exact ⟨R, hR, fun i => ⟨.nil, rfl⟩⟩

variable [DecidableEq ι]

/-- **Step**, of a task or under the sync path: the other server takes it too. -/
theorem Twin.step (htwin : Twin config s t) (hclean : CleanSpec D.clean)
    (hinv : Enclosed config fs₀ s) (hunder : e.under config.syncPath.resolve = true)
    (hs : Server.step D config action cap s e = some s') :
    ∃ t', Server.step D config action cap t e = some t' ∧ Twin config s' t' := by
  obtain ⟨R, hd, htasks⟩ := htwin
  rcases e with ⟨i, ev⟩ | ⟨l, data⟩ <;> simp only [Server.step] at hs ⊢
  · obtain ⟨h₁, hstep, rfl⟩ := Option.map_eq_some_iff.mp hs
    have hserves := hinv.serves i
    have htask : Host.Twin R { s.task i with fs := s.fs } { t.task i with fs := t.fs } :=
      ⟨(htasks i).writers, by rw [(htasks i).rest]⟩
    obtain ⟨R', h₁', hstep', hd', hle, htask'⟩ := htask.step hd hserves.at_pc
      (fun p hp => hserves.at_pc.under_of_reads hclean (h := { s.task i with fs := s.fs }) hp)
      (fun w hw => ⟨(hserves.inside w hw).1.1, (hserves.inside w hw).1.under_parent,
        (hserves.inside w hw).2.1⟩) hstep
    refine ⟨_, by rw [hstep']; rfl, R', hd', fun j => ?_⟩
    by_cases hj : j = i
    · subst hj
      simpa only [Function.update_self] using htask'
    · simp only [Function.update_of_ne hj]
      exact (htasks j).mono hle
  · split at hs
    · rename_i fs n hcreate
      obtain rfl := Option.some.inj hs
      have hl : config.syncPath.resolve.Under l := of_decide_eq_true hunder
      have hne : l ≠ config.syncPath.resolve := by
        rintro rfl
        exact Disk.create_ne_dir hcreate hinv.root
      have hin : config.syncPath.resolve.Inside l := ⟨hl, hne⟩
      obtain ⟨R', fs', m, hcreate', hd', hle, -⟩ := hd.create hl hin.under_parent hcreate
      rw [hcreate']
      exact ⟨_, rfl, R', hd', fun j => (htasks j).mono hle⟩
    · cases hs

/-- **Step**, elsewhere: the other server does not notice. -/
theorem Twin.step_elsewhere (htwin : Twin config s t)
    (hunder : e.under config.syncPath.resolve = false)
    (hs : Server.step D config action cap s e = some s') : Twin config s' t := by
  obtain ⟨R, hd, htasks⟩ := htwin
  rcases e with ⟨i, ev⟩ | ⟨l, data⟩
  · cases hunder
  · simp only [Server.step] at hs
    split at hs
    · obtain rfl := Option.some.inj hs
      exact ⟨R, hd.create_elsewhere (of_decide_eq_false hunder) ‹_›, htasks⟩
    · cases hs

/-- **Run.** -/
theorem Twin.replay (htwin : Twin config s t) (hclean : CleanSpec D.clean)
    (hinv : Enclosed config fs₀ s)
    (hs : Lts.replay (Server.step D config action cap) s es = some s') :
    ∃ t', Lts.replay (Server.step D config action cap) t
        (es.filter (·.under config.syncPath.resolve)) = some t' ∧ Twin config s' t' := by
  induction es generalizing s t with
  | nil =>
    obtain rfl := Option.some.inj hs
    exact ⟨t, rfl, htwin⟩
  | cons e es ih =>
    simp only [Lts.replay, List.foldlM_cons, Option.bind_eq_bind, Option.bind_eq_some_iff] at hs
    obtain ⟨s₁, hstep, hs⟩ := hs
    have hinv₁ := hinv.step hclean hstep
    cases hunder : e.under config.syncPath.resolve with
    | true =>
      obtain ⟨t₁, hstep', htwin₁⟩ := htwin.step hclean hinv hunder hstep
      obtain ⟨t', ht', htwin'⟩ := ih htwin₁ hinv₁ hs
      refine ⟨t', ?_, htwin'⟩
      rw [List.filter_cons_of_pos (by simpa using hunder)]
      simp only [Lts.replay, List.foldlM_cons, Option.bind_eq_bind, hstep', Option.bind_some]
      exact ht'
    | false =>
      rw [List.filter_cons_of_neg (by simpa using hunder)]
      exact ih (htwin.step_elsewhere hunder hstep) hinv₁ hs

/-- **The rest of the disk is secret.**  Let two disks be the same under the sync
path.  What can happen to a server on one can happen to a server on the other,
without what users write elsewhere; and where the same happens to both, whatever
users write elsewhere on either, all tasks have sent the same messages and stand
at the same point, and the files under the sync path are the same. -/
theorem secret (hclean : CleanSpec D.clean) (hroot : fs₁.entry config.syncPath.resolve = some .dir)
    (hdir : ∀ l, config.syncPath.resolve.Under l →
      (fs₁.entry l = some .dir ↔ fs₂.entry l = some .dir))
    (hlookup : ∀ l, config.syncPath.resolve.Under l → fs₁.lookup l = fs₂.lookup l)
    (hs : Lts.replay (Server.step D config action cap) (start fs₁) es = some s) :
    (∃ t, Lts.replay (Server.step D config action cap) (start fs₂)
      (es.filter (·.under config.syncPath.resolve)) = some t) ∧
    ∀ es' t, Lts.replay (Server.step D config action cap) (start fs₂) es' = some t →
      es.filter (·.under config.syncPath.resolve) =
        es'.filter (·.under config.syncPath.resolve) →
      (∀ i, (s.task i).sent = (t.task i).sent ∧ (s.task i).pc = (t.task i).pc) ∧
      ∀ l, config.syncPath.resolve.Under l → s.fs.lookup l = t.fs.lookup l := by
  have hroot' := (hdir _ (Place.under_refl _)).mp hroot
  have hother : Twin config (start fs₁ : Server ι) (start fs₂) := twin_start hdir hlookup
  obtain ⟨u, hu, hsu⟩ := hother.replay hclean
    (enclosed_start hroot) hs
  refine ⟨⟨u, hu⟩, fun es' t ht hes => ?_⟩
  -- both are like the run without the writes elsewhere
  have hself : Twin config (start fs₂ : Server ι) (start fs₂) :=
    twin_start (fun _ _ => Iff.rfl) fun _ _ => rfl
  obtain ⟨u', hu', htu⟩ := hself.replay hclean (enclosed_start hroot') ht
  rw [← hes] at hu'
  obtain rfl := Option.some.inj (hu.symm.trans hu')
  refine ⟨fun i => ?_, fun l hl => (hsu.lookup_eq hl).trans (htu.lookup_eq hl).symm⟩
  exact ⟨(hsu.task i).1.trans (htu.task i).1.symm, (hsu.task i).2.trans (htu.task i).2.symm⟩

/-- A file beside the sync path. -/
def secretPlace : Place := (PathBuf.ofString "key").resolve

/-- `secret` for an upload: the one disk has a file beside the sync path, and on
the other a user writes one. -/
theorem secret_upload : ∃ s t : Server Unit,
    Lts.replay (Server.step sampleCrates sampleConfig ⟨"", 0, none⟩ 32)
      (start ((sampleFs none).link secretPlace ⟨[7], none⟩)) (uploadBegun "f") = some s ∧
    Lts.replay (Server.step sampleCrates sampleConfig ⟨"", 0, none⟩ 32)
      (start (sampleFs none)) (.user secretPlace ⟨[9], none⟩ :: uploadBegun "f") = some t ∧
    s.fs.lookup secretPlace = some ⟨[7], none⟩ ∧ t.fs.lookup secretPlace = some ⟨[9], none⟩ ∧
    (s.task ()).sent = (t.task ()).sent := by
  have hs : (Lts.replay (Server.step sampleCrates sampleConfig ⟨"", 0, none⟩ 32)
      (start ((sampleFs none).link secretPlace ⟨[7], none⟩)) (uploadBegun "f")).any fun s =>
        s.fs.lookup secretPlace = some ⟨[7], none⟩ := by decide
  have ht : (Lts.replay (Server.step sampleCrates sampleConfig ⟨"", 0, none⟩ 32)
      (start (sampleFs none)) (.user secretPlace ⟨[9], none⟩ :: uploadBegun "f")).any fun t =>
        t.fs.lookup secretPlace = some ⟨[9], none⟩ := by decide
  obtain ⟨s, hs, hkey⟩ := (Option.any_eq_true _ _).mp hs
  obtain ⟨t, ht, hkey'⟩ := (Option.any_eq_true _ _).mp ht
  have hne : ∀ l, sampleConfig.syncPath.resolve.Under l → l ≠ secretPlace := by
    rintro l hl rfl
    exact absurd hl (by decide)
  -- the file is created where nothing is under the sync path
  have hcreate : (sampleFs none).create Place.parent secretPlace ⟨[7], none⟩ =
      .ok ((sampleFs none).link secretPlace ⟨[7], none⟩, 0) := rfl
  obtain ⟨-, -, hentry, hlookup⟩ := Disk.create_ok hcreate
  have hsame := (secret (fun _ => rfl) (by decide) (fun l hl => by rw [hentry l (hne l hl)])
    (fun l hl => hlookup l (hne l hl)) hs).2 _ t ht (List.filter_cons_of_neg (by decide)).symm
  exact ⟨s, t, hs, ht, of_decide_eq_true hkey, of_decide_eq_true hkey', (hsame.1 ()).1⟩

end Server

end Harmonic
