import Rmdb.Mvcc.MvccRuns
import Rmdb.Transaction.Crash

/-
  This file shows what the reads and the writes of MVCC
  transactions guarantee, for every run in which only such
  transactions begin.

  A transaction reads its own last write to a row, or else the
  version of the transaction with the largest commit timestamp
  not above its start timestamp.  Two transactions that both
  committed writes to one row did not overlap, and a row has
  at most one running writer.

  Key definitions include:
    * `SnapshotValue`
    * `ReadsSnapshot`
    * `Extends`

  Key theorems include:
    * `Recorded.reads_snapshot`
    * `Recorded.first_updater_wins`
-/

namespace Rmdb

open VersionHistory Sys

------------
-- The Versions Of A Snapshot
------------

/- Has the transaction committed by a timestamp? -/
def Engine.CommittedBy (e : Engine) (ts : Int) (u : TxnId) : Prop :=
  e.state u = .committed ∧ (e.txn u).commitTs ≤ ts

/- The value that the transaction with the largest commit
  timestamp not above the given one wrote last, or the value
  at the start of the run if there is no such transaction. -/
def SnapshotValue
    (base : Loc → Option RmRecord)
    (e : Engine)
    (h : Hist)
    (ts : Int)
    (x : Loc)
    (v : Option RmRecord) :
    Prop :=
  (∃ u w, e.CommittedBy ts u ∧ h.own u x = some w ∧
      v = w.value ∧
      ∀ u', e.CommittedBy ts u' → h.own u' x ≠ none →
        (e.txn u').commitTs ≤ (e.txn u).commitTs) ∨
    (∀ u, e.CommittedBy ts u → h.own u x = none) ∧ v = base x

/- What a transaction has to see of a row. -/
def ReadsSnapshot
    (base : Loc → Option RmRecord)
    (e : Engine)
    (h : Hist)
    (t : TxnId)
    (x : Loc)
    (v : Option RmRecord) :
    Prop :=
  match h.own t x with
  | some w => v = w.value
  | none => SnapshotValue base e h (e.startTs t) x v

section Stamps

variable {base : Loc → Option RmRecord} {floor : Int}
variable {e e' : Engine} {h h' : Hist} {t u : TxnId} {x : Loc}

/- Newer writes to a row have later commits. -/
theorem HistOk.ordered (hHist : HistOk e h) : h.Ordered := by
  refine hHist.order.imp ?_
  intro newer older hPair hLoc c d hC hD
  by_cases hTxn : newer.txn = older.txn
  · rw [hTxn, hC] at hD
    exact le_of_eq (Option.some.inj hD)
  · have hNewer := (hHist.stamped _ d hD).1
    have hOlder := (hHist.stamped _ c hC).1
    rcases hPair hLoc hTxn (by simp [hNewer]) (by simp [hOlder])
      with ⟨c', hC', -, hLater⟩
    rw [hC] at hC'
    obtain rfl := Option.some.inj hC'
    exact hLater d hD

/- The history has the commit timestamps of the manager. -/
theorem stamps_eq_iff
    (hHist : HistOk e h)
    (hOnly : e.OnlyMvcc)
    (c : Int) :
    h.stamps u = some c ↔ e.state u = .committed ∧ (e.txn u).commitTs = c := by
  have hCommitted : e.state u = .committed → h.stamps u = some (e.txn u).commitTs := by
    intro hState
    rcases hHist.committed u hState with ⟨d, hD, hSame⟩
    rw [hD, hSame (hOnly.levels u (by simp [hState]))]
  constructor
  · intro hStamp
    have hState := (hHist.stamped u c hStamp).1
    rw [hCommitted hState] at hStamp
    exact ⟨hState, Option.some.inj hStamp⟩
  · rintro ⟨hState, rfl⟩
    exact hCommitted hState

theorem snapshotValue_of_isSnapshot
    {ts : Int}
    {v : Option RmRecord}
    (hHist : HistOk e h)
    (hOnly : e.OnlyMvcc)
    (hSnapshot : h.IsSnapshot base ts x v) :
    SnapshotValue base e h ts x v := by
  have hStamp : ∀ u', e.CommittedBy ts u' → h.stamps u' = some (e.txn u').commitTs :=
    fun u' hU => (stamps_eq_iff hHist hOnly _).mpr ⟨hU.1, rfl⟩
  rcases hSnapshot with ⟨u, c, w, hC, hLe, hOwn, hValue, hMax⟩ | ⟨hNone, hValue⟩
  · rcases (stamps_eq_iff hHist hOnly c).mp hC with ⟨hState, rfl⟩
    refine Or.inl ⟨u, w, ⟨hState, hLe⟩, hOwn, hValue, ?_⟩
    intro u' hU hOwn'
    exact hMax u' _ (hStamp u' hU) hU.2 hOwn'
  · refine Or.inr ⟨?_, hValue⟩
    intro u' hU
    exact hNone u' _ (hStamp u' hU) hU.2

/- The reads of a state that agrees with its history. -/
theorem AgreesMvcc.visible
    (hInv : AgreesMvcc base e h)
    (hGrowing : e.state t = .growing)
    (x : Loc) :
    e.getVisibleRecord t x =
      match h.own t x with
      | some w => w.value
      | none => h.valueAt base (e.startTs t) x := by
  rcases hInv.agrees with ⟨⟨floor, hConsistent⟩, -⟩
  have hMvcc := hInv.only.mvcc_of_running (Or.inl hGrowing)
  rw [hConsistent.visible hGrowing (fun hRc => absurd (hMvcc.symm.trans hRc) (by simp))]
  unfold Consistent.expected
  rw [hMvcc]
  rfl

theorem AgreesMvcc.readsSnapshot
    (hInv : AgreesMvcc base e h)
    (hGrowing : e.state t = .growing)
    (x : Loc) :
    ReadsSnapshot base e h t x (e.getVisibleRecord t x) := by
  rcases hInv.agrees with ⟨⟨floor, hConsistent⟩, -⟩
  rw [hInv.visible hGrowing x]
  unfold ReadsSnapshot
  cases hOwn : h.own t x with
  | some w => rfl
  | none =>
    exact snapshotValue_of_isSnapshot hConsistent.hist hInv.only
      (History.isSnapshot_valueAt hConsistent.hist.ordered base _ x)

end Stamps

------------
-- The Past Does Not Change
------------

/- Later states say the same about the timestamps so far. -/
structure Extends
    (base : Loc → Option RmRecord)
    (e : Engine)
    (h : Hist)
    (e' : Engine)
    (h' : Hist) :
    Prop where
  ages : e.Ages e'
  past : ∀ ts x, ts ≤ e.lastCommitTs → h'.valueAt base ts x = h.valueAt base ts x
  own : ∀ t x, h'.own t x = none → h.own t x = none

section Extends

variable {base : Loc → Option RmRecord}
variable {e e' e'' : Engine} {h h' h'' : Hist}
variable {t : TxnId} {x : Loc} {op : Op}

theorem Extends.trans
    (hFirst : Extends base e h e' h')
    (hSecond : Extends base e' h' e'' h'') :
    Extends base e h e'' h'' where
  ages := hFirst.ages.trans hSecond.ages
  past := fun ts x hTs =>
    (hSecond.past ts x (le_trans hTs hFirst.ages.last)).trans (hFirst.past ts x hTs)
  own := fun t x hNone => hFirst.own t x (hSecond.own t x hNone)

theorem own_of_own_write {w : Write TxnId Loc (Option RmRecord)}
    (hNone : (h.write w).own t x = none) : h.own t x = none := by
  unfold History.own at hNone ⊢
  rw [History.latest_write] at hNone
  split at hNone
  · cases hNone
  · exact hNone

theorem AgreesMvcc.extends_step (hInv : AgreesMvcc base e h)
    (hStep : e.step op = some e') : Extends base e h e' (h.after e e' op) := by
  rcases hInv.agrees with ⟨⟨floor, hConsistent⟩, -⟩
  have hEffect := Engine.step_cases (fun t hR hM => hInv.agrees.start_nonneg hR hM) hStep
  have hAges := hEffect.ages (hConsistent.ids e.nextTxnId (Or.inr (le_refl _)))
  cases hEffect with
  | begin level hNew | abort t hRunning hAbort | collect hNew =>
    exact ⟨hAges, fun _ _ _ => rfl, fun _ _ h => h⟩
  | quiet _ t x hOp hQuiet =>
    rw [Hist.after_quiet h hOp hQuiet.not_wrote]
    exact ⟨hAges, fun _ _ _ => rfl, fun _ _ h => h⟩
  | change _ t d old hOp hCan hOutcome =>
    rw [Hist.after_change h hOp]
    split
    · -- an open write does not count
      have hOpen := hConsistent.hist.open_of_running (Or.inl hCan.growing)
      exact ⟨hAges, fun ts x _ => History.valueAt_write hOpen base ts x,
        fun _ _ hNone => own_of_own_write hNone⟩
    · exact ⟨hAges, fun _ _ _ => rfl, fun _ _ h => h⟩
  | commit t e₁ hCommits hLast =>
    have hRunning : e.Running t := Or.inl hCommits.growing
    have hVersions := Engine.hasVersions_of_mvcc (hInv.only.mvcc_of_running hRunning)
    have hTs : e'.lastCommitTs = e.lastCommitTs + 1 := by
      have hCommitTs := hCommits.lastCommitTs
      rw [hVersions, if_pos rfl] at hCommitTs
      rcases hLast with rfl | ⟨-, rfl⟩
      · exact hCommitTs
      · exact hCommitTs
    refine ⟨hAges, ?_, fun _ _ h => h⟩
    intro ts x hOld
    exact History.valueAt_stamp_of_lt (hConsistent.hist.open_of_running hRunning) (by omega) base x

theorem AgreesMvcc.extends_run
    {tr tr' : Recorded}
    {ops : List Op}
    (hInv : AgreesMvcc base tr.eng tr.hist)
    (hOps : ∀ op ∈ ops, op.Mvcc)
    (hRun : tr.run ops = some tr') :
    Extends base tr.eng tr.hist tr'.eng tr'.hist := by
  refine (StepSystem.invariant_of_guarded_run (fun now => AgreesMvcc base now.eng now.hist ∧
      Extends base tr.eng tr.hist now.eng now.hist) ?_
    ⟨hInv, .refl _, fun _ _ _ => rfl, fun _ _ h => h⟩ (StepSystem.guarded_of_forall tr hOps) hRun).2
  rintro now op next ⟨hNow, hSoFar⟩ hOp hStep
  rcases Recorded.step_eq_some hStep with ⟨hEng, hHist⟩
  rw [hHist]
  exact ⟨hNow.step hOp hEng, hSoFar.trans (hNow.extends_step hEng)⟩

end Extends

------------
-- Snapshot Reads
------------

namespace Recorded

variable {db : Db} {tabCols : TabName → List ColMeta}
variable {ops : List Op} {tr : Recorded}

/- Every read of a run of MVCC transactions is a read of the
  transaction's snapshot, and what a transaction sees of the
  rows it has not written stays the same until it ends. -/
theorem reads_snapshot
    (hOps : ∀ op ∈ ops, op.Mvcc)
    (hRun : (init db tabCols).run ops = some tr)
    (t : TxnId)
    (hGrowing : tr.eng.state t = .growing)
    (x : Loc) :
    ReadsSnapshot db.record tr.eng tr.hist t x (tr.eng.getVisibleRecord t x) ∧
      ∀ later tr', (∀ op ∈ later, op.Mvcc) → tr.run later = some tr' →
        tr'.eng.state t = .growing →
        tr'.hist.own t x = none →
        tr'.eng.getVisibleRecord t x = tr.eng.getVisibleRecord t x := by
  have hInv := agreesMvcc_run (agreesMvcc_init db tabCols) hOps hRun
  refine ⟨hInv.readsSnapshot hGrowing x, ?_⟩
  intro later tr' hLater hMore hGrowing' hOwn
  have hInv' := agreesMvcc_run hInv hLater hMore
  have hExtends := hInv.extends_run hLater hMore
  have hStart := hExtends.ages.start t (by simp [hGrowing])
  rw [hInv'.visible hGrowing' x, hInv.visible hGrowing x, hOwn, hExtends.own t x hOwn]
  simp only [hStart]
  apply hExtends.past
  rcases hInv.agrees with ⟨⟨floor, hConsistent⟩, -⟩
  exact (hConsistent.starts t (Or.inl hGrowing) (hInv.only.mvcc_of_running (Or.inl hGrowing))).2

/- A committed insert; a reader begins, the row is updated and
  garbage is collected, and the row is deleted. -/
def readerBesideWriters : List Op :=
  [.begin .snapshotIsolation,
    .insertRow 0 Sys.firstRow [1] [], .commit 0,
    .begin .snapshotIsolation, .begin .serializable,
    .updateRow 2 Sys.firstRow [2] [], .commit 2,
    .garbageCollection, .begin .snapshotIsolation,
    .deleteRow 3 Sys.firstRow []]

theorem reads_snapshot_readerBesideWriters :
    ∃ tr, (init Sys.twoSlotTables (fun _ => [])).run readerBesideWriters =
        some tr ∧
      tr.eng.getVisibleRecord 1 Sys.firstRow = some [1] ∧
      tr.eng.getVisibleRecord 3 Sys.firstRow = none ∧
      ReadsSnapshot Sys.twoSlotTables.record tr.eng tr.hist 1 Sys.firstRow
        (tr.eng.getVisibleRecord 1 Sys.firstRow) ∧
      ReadsSnapshot Sys.twoSlotTables.record tr.eng tr.hist 3 Sys.firstRow
        (tr.eng.getVisibleRecord 3 Sys.firstRow) := by
  have hRun : (init twoSlotTables (fun _ => [])).run readerBesideWriters = some _ :=
    (Option.some_get (by decide)).symm
  have hOps : ∀ op ∈ readerBesideWriters, op.Mvcc := by decide
  exact ⟨_, hRun, by decide, by decide, (reads_snapshot hOps hRun 1 (by decide) firstRow).1,
    (reads_snapshot hOps hRun 3 (by decide) firstRow).1⟩

end Recorded

------------
-- First Updater Wins
------------

/- Each transaction started before the other one committed. -/
def Engine.Overlap (e : Engine) (t u : TxnId) : Prop :=
  e.startTs t < (e.txn u).commitTs ∧
    e.startTs u < (e.txn t).commitTs

section Writers

variable {base : Loc → Option RmRecord}
variable {e : Engine} {h : Hist}

/- Of two committed writers one started after the other. -/
theorem AgreesMvcc.not_overlap (hInv : AgreesMvcc base e h) :
    ∀ w ∈ h.writes, ∀ w' ∈ h.writes, w.loc = w'.loc → w.txn ≠ w'.txn →
      e.state w.txn = .committed → e.state w'.txn = .committed →
      ¬ e.Overlap w.txn w'.txn := by
  rcases hInv.agrees with ⟨⟨floor, hConsistent⟩, -⟩
  have hHist := hConsistent.hist
  have hPair : ∀ newer older : Write TxnId Loc (Option RmRecord),
      Supersedes e h newer older → newer.loc = older.loc → newer.txn ≠ older.txn →
      e.state newer.txn = .committed → e.state older.txn = .committed →
        ¬ e.Overlap newer.txn older.txn := by
    intro newer older hPair hLoc hTxn hNewer hOlder hOverlap
    have hMvcc := hInv.only.levels newer.txn (by simp [hNewer])
    rcases hPair hLoc hTxn (by simp [hNewer]) (by simp [hOlder])
      with ⟨c, hC, hStart, -⟩
    have hTs := ((stamps_eq_iff hHist hInv.only c).mp hC).2
    have hAfter := hStart hMvcc
    have hBefore := hOverlap.1
    omega
  refine List.Pairwise.forall_of_forall_of_flip ?_
    (hHist.order.imp (hPair _ _)) (hHist.order.imp ?_)
  · intro w _ _ hTxn
    exact absurd rfl hTxn
  · intro newer older hOrder hLoc hTxn hOlder hNewer hOverlap
    exact hPair newer older hOrder hLoc.symm hTxn.symm hNewer hOlder hOverlap.symm

/- A running writer owns its rows. -/
theorem AgreesMvcc.owns_of_running
    (hInv : AgreesMvcc base e h)
    {w : Write TxnId Loc (Option RmRecord)}
    (hW : w ∈ h.writes)
    (hRunning : e.Running w.txn) :
    e.Owns w.txn w.loc := by
  rcases hInv.agrees with ⟨⟨floor, hConsistent⟩, -⟩
  rcases hConsistent.hist.owns w hW hRunning with hOwns | hPlain
  · exact hOwns
  · have hMvcc := hInv.only.mvcc_of_running hRunning
    cases hMvcc.symm.trans hPlain.plain.level

end Writers

namespace Recorded

variable {db : Db} {tabCols : TabName → List ColMeta}
variable {ops : List Op} {tr : Recorded}

/- Transactions that committed writes to one row did not
  overlap. A row has at most one owner, the owners are
  running, and every running transaction owns the rows it has
  written. -/
theorem first_updater_wins (hOps : ∀ op ∈ ops, op.Mvcc)
    (hRun : (init db tabCols).run ops = some tr) :
    (∀ w ∈ tr.hist.writes, ∀ w' ∈ tr.hist.writes,
      w.loc = w'.loc → w.txn ≠ w'.txn →
      tr.eng.state w.txn = .committed → tr.eng.state w'.txn = .committed →
      ¬ tr.eng.Overlap w.txn w'.txn) ∧
    (∀ w ∈ tr.hist.writes, tr.eng.Running w.txn →
      tr.eng.Owns w.txn w.loc) ∧
    ∀ x t u, tr.eng.Owns t x → tr.eng.Owns u x →
      tr.eng.Running t ∧ t = u := by
  have hInv := agreesMvcc_run (agreesMvcc_init db tabCols) hOps hRun
  refine ⟨hInv.not_overlap, fun w hW hRunning => hInv.owns_of_running hW hRunning, ?_⟩
  intro x t u hT hU
  rcases hInv.agrees with ⟨⟨floor, hConsistent⟩, -⟩
  exact ⟨((hConsistent.rows x).owner t hT).1, hT.unique hU⟩

/- Two writers of one row after each other; their versions are
  collected before the second one writes, and a third, older
  one is rejected. -/
def writersInTurn : List Op :=
  [.begin .snapshotIsolation,
    .insertRow 0 Sys.firstRow [1] [], .commit 0,
    .garbageCollection, .begin .snapshotIsolation,
    .begin .snapshotIsolation,
    .updateRow 1 Sys.firstRow [2] [], .commit 1,
    .updateRow 2 Sys.firstRow [3] [], .abort 2]

theorem first_updater_wins_writersInTurn :
    ∃ tr, (init Sys.twoSlotTables (fun _ => [])).run writersInTurn =
        some tr ∧
      tr.hist.writes.map (fun w => (w.txn, w.loc)) =
        [(1, Sys.firstRow), (0, Sys.firstRow)] ∧
      tr.eng.state 0 = .committed ∧
      tr.eng.state 1 = .committed ∧ ¬ tr.eng.Overlap 1 0 := by
  have hRun : (init twoSlotTables (fun _ => [])).run writersInTurn = some _ :=
    (Option.some_get (by decide)).symm
  refine ⟨_, hRun, by decide, by decide, by decide, ?_⟩
  exact (first_updater_wins (by decide) hRun).1 ⟨1, firstRow, some [2]⟩ (by decide)
    ⟨0, firstRow, some [1]⟩ (by decide) rfl (by decide) (by decide) (by decide)

end Recorded

end Rmdb
