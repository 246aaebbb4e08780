import Rmdb.Transaction.Moves
import Rmdb.Transaction.WriteSet

/-
  This file shows that the server refines the write-ahead
  machine: every orderly step of the server is a sequence of
  steps of the machine, and it keeps the write sets in order.

  Key theorems include:
    * `Sys.step_refines`
    * `Sys.inv_run`
-/

namespace Rmdb

open Function DataRecord Table Log Option

namespace Sys

------------
-- A Rejected Insert
------------

/- The row itself has no entry of the transaction any more. -/
theorem unregister_self
    (s : Sys)
    (t : TxnId)
    (x : Loc) :
    (s.unregisterPhysicalInsert t x).physicalInsertOwners x ≠ some t := by
  unfold unregisterPhysicalInsert
  split
  · simp
  · assumption

/- Taking a row out of the heap changes one table at most. -/
theorem takeOut_cases
    (s : Sys)
    (t : TxnId)
    (x : Loc) :
    s.takeOut t x = s ∨ ∃ tab, (s.db x.tab).deleteRecord x.rid = .ok tab ∧
        s.takeOut t x = s.setTable x.tab tab := by
  unfold takeOut
  split
  · cases hRun : (s.db x.tab).deleteRecord x.rid with
    | error e => exact Or.inl rfl
    | ok tab => exact Or.inr ⟨tab, rfl, rfl⟩
  · exact Or.inl rfl

variable {t : TxnId} {x : Loc} {rec : RmRecord}

/- The row of an owner is gone from a slot that exists. -/
theorem takeOut_ok
    {s : Sys}
    (hOwner : s.ownsPhysicalInsert t x)
    (hRecord : s.db.record x = some rec)
    (hSlot : (s.db x.tab).HasSlot x.rid) :
    s.takeOut t x = s.setTable x.tab ((s.db x.tab).setSlot x.rid none) := by
  have hPage := hasPage_of_record hRecord
  have hIs : (s.db x.tab).isRecord x.rid = true := by
    have hSome : (s.db x.tab).record x.rid = some rec := hRecord
    simp [isRecord, hSome]
  unfold takeOut
  rw [if_pos ⟨hOwner, hIs⟩, deleteRecord_ok hPage hSlot hRecord]

theorem view_removePlaced
    (s : Sys)
    (t : TxnId)
    (x : Loc) :
    ∃ v, (s.removePlaced t x).view =
      (s.view.setContent x v).setStatus t .doomed ∧
      ∀ rec, s.ownsPhysicalInsert t x → s.db.record x = some rec →
        (s.db x.tab).HasSlot x.rid → v = none := by
  unfold removePlaced
  rw [view_setPhase, view_unregisterPhysicalInsert]
  rcases takeOut_cases s t x with hSame | ⟨tab, hRun, hOut⟩
  · refine ⟨s.db.record x, ?_, ?_⟩
    · rw [hSame]
      exact congrArg (·.setStatus t .doomed) (s.view.setContent_self x).symm
    · intro rec hOwner hRecord hSlot
      have hGone := takeOut_ok hOwner hRecord hSlot
      rw [hSame] at hGone
      have hPage := hasPage_of_record hRecord
      have hView := congrArg view hGone
      rw [view_setSlot s hPage (fun _ => rfl)] at hView
      have hNone := congrFun (congrArg Wal.State.content hView) x
      simpa [view, Wal.State.setContent] using hNone
  · rcases deleteRecord_eq_ok hRun with ⟨hPage, rfl⟩
    refine ⟨none, ?_, fun _ _ _ _ => rfl⟩
    rw [hOut, view_setSlot s hPage (fun _ => rfl)]
    rfl

variable {table : Table} {db : Db} {ph : Phase} {lsn : Int} {v : Option RmRecord}

------------
-- Steps Of The Executors
------------

section Executors

variable {db₀ : Db} {s s' : Sys} {t : TxnId}

variable {d : DataRecord} {st : Stage}

theorem status_of_phase (hPhase : s.phase t = ph) : s.view.status t = ph.view :=
  congrArg Phase.view hPhase

theorem sameLayout_setTable {tab : TabName}
    (hKeeps : (s.db tab).KeepsPages table) :
    s.db.SameLayout (s.setTable tab table).db :=
  sameLayout_update hKeeps

variable {table' : Table} {rid : Rid}

variable {locks : Loc → Option TxnId}

/- The stages of the machine are those of the server. -/
theorem op_of_status
    {u : TxnId}
    {st : Wal.Stage}
    (hStatus : s.view.status u = .op d st) :
    ∃ st', s.phase u = .op d st' ∧ st'.view = st := by
  have hView : (s.phase u).view = .op d st := hStatus
  cases hPhase : s.phase u with
  | op e st' =>
    rw [hPhase] at hView
    obtain ⟨rfl, rfl⟩ := Wal.Status.op.inj hView
    exact ⟨st', rfl, rfl⟩
  | _ =>
    rw [hPhase] at hView
    simp [Phase.view] at hView

variable {oldRec newRec : RmRecord}

theorem setTable_self (tab : TabName) : s.setTable tab (s.db tab) = s := by
  simp [setTable]

variable (hWrite : WriteInv db₀ s) (hInv : Wal.Inv (inRange db₀) s.view)
include hWrite hInv

/- The row a transaction works on has a slot. -/
theorem hasSlot_of_op (hPhase : s.phase t = .op d st) :
    (s.db d.loc.tab).HasSlot d.loc.rid := by
  have hStatus := status_of_phase hPhase
  have hSlot := (hInv.range.pending t d _ hStatus).2
  exact ((hWrite.layout d.loc.tab).hasSlot d.loc.rid).mpr hSlot

/- A rejected insert leaves its row untainted or doomed. -/
theorem removePlaced_advance (hPhase : s.phase t = .op (.insert x rec) st)
    (hUnlogged : st.view.lsn? = none) :
    Advance db₀ s (s.removePlaced t x) t := by
  have hStatus := status_of_phase hPhase
  have hLayout : s.db.SameLayout (s.takeOut t x).db := by
    rcases takeOut_cases s t x with hSame | ⟨tab, hRun, hOut⟩
    · rw [hSame]
      exact .refl _
    · rw [hOut]
      rcases deleteRecord_eq_ok hRun with ⟨_, rfl⟩
      exact sameLayout_setTable (.refl _)
  have hTurn : Turn s (s.removePlaced t x) t { s.txn t with phase := .failed } := by
    have hOwners := unregister_owners (s.takeOut t x) t x
    have hOwn : (s.takeOut t x).physicalInsertOwners = s.physicalInsertOwners := by rw [takeOut_eq]
    rw [hOwn] at hOwners
    rw [removePlaced_eq]
    exact ⟨by simp [hPhase], rfl, rfl, hLayout, rfl, Or.inl rfl, hOwners⟩
  refine ⟨?_, hTurn.frame, ?_⟩
  · rcases view_removePlaced s t x with ⟨v, hView, hGone⟩
    rw [hView]
    apply Relation.ReflTransGen.single
    refine Wal.Step.unplace s.view t x rec st.view v hStatus hUnlogged ?_
    intro hClean
    exact hGone rec ((hWrite.txns t).place x rec st hPhase hUnlogged hClean)
      (record_of_placed hInv hPhase hClean) (hasSlot_of_op hWrite hInv hPhase)
  · refine hTurn.txnOk (hWrite.txns t) (by simp) (by simp) (fun _ => Or.inl) ?_
    intro y rec' st' hOp hMine
    obtain ⟨⟨rfl, rfl⟩, rfl⟩ : (x = y ∧ rec = rec') ∧ st = st' := by
      simpa using hPhase.symm.trans hOp
    exact absurd hMine (unregister_self _ t x)

omit hInv

theorem place_advance
    (hIdle : s.phase t = .idle)
    (hRun : (s.db x.tab).allocate x.rid = some table)
    (hNew : s' = (((s.setTable x.tab
      (table.setSlot x.rid (some rec))).registerPhysicalInsert t
      x).appendWriteRecord t (.insertTuple x)).setPhase t
        (.op (.insert x rec) .placed)) :
    Advance db₀ s s' t := by
  subst hNew
  rcases allocate_eq_some hRun with ⟨hFirst, hSlot, hFree, hPage, hPer, hImage, -, hMore⟩
  have hRecord : s.db.record x = none := hFree
  constructor
  · rw [view_setPhase, view_appendWriteRecord, view_registerPhysicalInsert]
    rw [view_setTable_slot s (x := x) (v := some rec)]
    · apply Relation.ReflTransGen.single
      refine Wal.Step.place s.view t x rec (status_of_phase hIdle) ?_ hRecord
      refine ⟨hFirst, ?_⟩
      exact ((hWrite.layout x.tab).hasSlot x.rid).mp hSlot
    · intro k
      rw [image_setSlot hPage, hImage]
  · refine ⟨by simp [hIdle], rfl, rfl, sameLayout_setTable ⟨hPer, hMore⟩, ?_,
    fun u _ y => Iff.rfl, ?_⟩
    · intro u hU
      simp [setPhase, setTxn, appendWriteRecord, registerPhysicalInsert, setTable, hU]
    · intro y u hU
      simp only [setPhase, setTxn, appendWriteRecord, registerPhysicalInsert, setTable]
      by_cases hY : y = x
      · subst hY
        simp [hRecord, Ne.symm hU]
      · simp only [update_of_ne hY]
        exact ⟨id, fun h _ => h⟩
  · have hOld := hWrite.txns t
    constructor
    · intro h
      simp at h
    · intro y rec' st _
      simp [setPhase, setTxn, appendWriteRecord]
    · intro w hW y hY
      have hMem : w = .insertTuple x ∨ w ∈ (s.txn t).writeSet := by
        simpa [setPhase, setTxn, appendWriteRecord, registerPhysicalInsert, setTable] using hW
      rcases hMem with rfl | hMem
      · simp [WriteRecord.changed?] at hY
      · exact hOld.changed w hMem y hY
    · intro y hMine
      by_cases hY : y = x
      · subst hY
        exact Or.inr ⟨rec, .placed, by simp⟩
      · have hMine' : s.physicalInsertOwners y = some t := by
          simpa [setPhase, setTxn, appendWriteRecord,
            registerPhysicalInsert, setTable, hY] using hMine
        rcases hOld.owner y hMine' with h | ⟨rec', st, h⟩
        · exact Or.inl h
        · cases hIdle.symm.trans h
    · intro y rec' st h _ _
      have hOp : (x = y ∧ rec = rec') ∧ Stage.placed = st := by simpa using h
      obtain ⟨⟨rfl, rfl⟩, rfl⟩ := hOp
      simp [setPhase, setTxn, appendWriteRecord, registerPhysicalInsert]

/- A step that logs nothing and moves no owner, after which
  the transaction does not insert. -/
theorem advance_quiet
    {txn : Txn}
    (hNew :
      s' = { s with
        db := db,
        locks := locks,
        txn := update s.txn t txn })
    (hSteps : Wal.Steps (inRange db₀) s.view s'.view)
    (hBegun : s.phase t ≠ .fresh)
    (hLayout : s.db.SameLayout db)
    (hInsert : ∀ x rec st, txn.phase ≠ .op (.insert x rec) st)
    (hIdle : txn.phase = .idle → ∀ x, ChangedBy s.log t x → txn.writeSet ≠ [])
    (hWrites : ∀ w ∈ txn.writeSet, w ∈ (s.txn t).writeSet ∨
        ∀ x, w.changed? = some x → ChangedBy s.log t x)
    (hLogged : ∀ x rec st, s.phase t = .op (.insert x rec) st →
      ChangedBy s.log t x) :
    Advance db₀ s s' t := by
  subst hNew
  have hTurn : Turn s { s with db := db, locks := locks, txn := update s.txn t txn } t txn :=
    ⟨hBegun, rfl, rfl, hLayout, rfl, Or.inl rfl, fun _ => Or.inl rfl⟩
  exact ⟨hSteps, hTurn.frame, hTurn.txnOk (hWrite.txns t) hInsert hIdle hWrites
    (fun x rec st hOp _ => hLogged x rec st hOp)⟩

theorem fail_advance (hIdle : s.phase t = .idle)
    (hPh : ph.view = .doomed) : Advance db₀ s (s.setPhase t ph) t := by
  have hSteps : Wal.Steps (inRange db₀) s.view (s.setPhase t ph).view := by
    rw [view_setPhase, hPh]
    apply Relation.ReflTransGen.single
    apply Wal.Step.fail
    simp [view, hIdle, Phase.view]
  refine advance_quiet hWrite rfl hSteps (by simp [hIdle])
    (.refl _) ?_ ?_ (fun _ => Or.inl) (by simp [hIdle])
  · rintro x rec st rfl
    simp [Phase.view] at hPh
  · rintro rfl
    simp [Phase.view] at hPh

theorem LockStep.advance (hLock : LockStep s t x s') : Advance db₀ s s' t := by
  cases hLock with
  | lock hIdle hFree =>
    have hSteps : Wal.Steps (inRange db₀) s.view (s.setLock x (some t)).view :=
      .single (Wal.Step.lockRow s.view t x (status_of_phase hIdle) hFree)
    have hNew : s.setLock x (some t) =
        { s with
          db := s.db,
          locks := update s.locks x (some t),
          txn := update s.txn t (s.txn t) } := by
      simp [setLock]
    exact advance_quiet hWrite hNew hSteps (by simp [hIdle]) (.refl _)
      (fun _ _ _ h => absurd (hIdle.symm.trans h) (by simp)) (hWrite.txns t).idle
      (fun _ => Or.inl) (by simp [hIdle])
  | conflict hIdle hHeld => exact fail_advance hWrite hIdle rfl

/- A condition on the begun transactions holds of all. -/
theorem forall_of_begun
    {p : Phase → Prop}
    (hFresh : p .fresh)
    (hBegun : ∀ u ∈ s.begun, p (s.phase u)) :
    ∀ u, p (s.phase u) := by
  intro u
  by_cases hU : u ∈ s.begun
  · exact hBegun u hU
  · rw [hWrite.fresh u hU]
    exact hFresh

/- The row of an update or a delete is locked and read. -/
theorem read_advance
    (hIdle : s.phase t = .idle)
    (hFree : s.lockFree t d.loc)
    (hSome : d.before.isSome)
    (hRecord : s.db.record d.loc = d.before)
    (hGuard : ∀ u ∈ s.begun, (s.phase u).placed? ≠ some d.loc) :
    Advance db₀ s ((s.setLock d.loc (some t)).setPhase t (.op d .read))
      t := by
  refine advance_quiet hWrite rfl ?_ (by simp [hIdle])
    (.refl _) ?_ (by simp) (fun _ => Or.inl) (by simp [hIdle])
  · rw [view_setPhase, view_setLock]
    apply Relation.ReflTransGen.single
    refine Wal.Step.read s.view t d ?_ hFree hSome hRecord ?_
    · simp [view, hIdle, Phase.view]
    · have hAll := forall_of_begun (p := fun ph => ph.placed? ≠ some d.loc) hWrite
        (by simp [Phase.placed?]) hGuard
      intro u rec hU
      rcases op_of_status hU with ⟨st, hPhase, hView⟩
      have hPlaced : st = .placed := by
        cases st <;> simp [Stage.view] at hView
        rfl
      apply hAll u
      rw [hPhase, hPlaced]
      rfl
  · intro x rec st h
    rw [(Phase.op.inj h).1] at hSome
    simp [before] at hSome

theorem ChangeStep.advance {change : RmRecord → DataRecord}
    (hChange : ∀ rec, (change rec).loc = x ∧ (change rec).before = some rec)
    (hGuard : ∀ u ∈ s.begun, (s.phase u).placed? ≠ some x)
    (hStep : ChangeStep s t x change s') : Advance db₀ s s' t := by
  cases hStep with
  | stop _ hLock => exact hLock.advance hWrite
  | read rec hIdle hFree hRecord =>
    rcases hChange rec with ⟨hLoc, hBefore⟩
    rw [← hLoc] at hFree hGuard ⊢
    refine read_advance hWrite hIdle hFree (by simp [hBefore]) ?_ hGuard
    rw [hBefore, hLoc]
    exact hRecord

/- A change is logged on a page whose changes are stamped. -/
theorem logOp_advance
    (hPhase : s.phase t = .op d st)
    (hStage : st = .indexed ∨ st = .read)
    (hGuard : s.Orderly (.next t)) :
    Advance db₀ s (s.logOp t d) t := by
  have hStatus := status_of_phase hPhase
  have hSteps : Wal.Steps (inRange db₀) s.view (s.logOp t d).view := by
    unfold logOp
    rw [view_setPhase, view_addLogRecord]
    apply Relation.ReflTransGen.single
    refine Wal.Step.log s.view t d st.view _ hStatus ?_ ?_
    · rcases hStage with rfl | rfl
      · exact Or.inl rfl
      · exact Or.inr rfl
    · have hLogs : d.loc.page ∈ (s.phase t).logs? := by
        rw [hPhase]
        rcases hStage with rfl | rfl <;> rfl
      have hAll := forall_of_begun (p := fun ph => ph.unstamped? ≠ some d.loc.page) hWrite
        (by simp [Phase.unstamped?]) (hGuard _ hLogs)
      intro u e lsn hU hPage
      rcases op_of_status hU with ⟨st', hOp, hView⟩
      have hLogged : st' = .logged lsn := by cases st' <;> simp_all [Stage.view]
      apply hAll u
      rw [hOp, hLogged, ← hPage]
      rfl
  have hTxn : (s.logOp t d).txn = update s.txn t
      { s.txn t with
        prevLsn := s.nextLsn,
        phase := .op d (.logged s.nextLsn) } := by
    simp [logOp, setPhase, setTxn, addLogRecord]
  have hTurn : Turn s (s.logOp t d) t _ :=
    ⟨by simp [hPhase], rfl, rfl, .refl _, hTxn, Or.inr ⟨_, rfl, rfl⟩, fun _ => Or.inl rfl⟩
  refine ⟨hSteps, hTurn.frame, ?_⟩
  cases d with
  | insert x rec =>
    refine hTurn.insert (hWrite.txns t) hPhase rfl rfl rfl ?_
      (fun _ => Wal.untainted_of_steps hSteps)
    intro h
    simp [Stage.view, Wal.Stage.lsn?] at h
  | delete x rec | update x old new =>
    exact hTurn.txnOk (hWrite.txns t) (by simp) (by simp) (fun _ => Or.inl) (by simp [hPhase])

omit hWrite

include hInv

/- A logged change has its record in the log. -/
theorem changedBy_of_logged (hPhase : s.phase t = .op d st)
    (hLsn : st.view.lsn? = some lsn) : ChangedBy s.log t d.loc ∧ 0 ≤ lsn := by
  have hStatus := status_of_phase hPhase
  have hStage := (hInv.status t).stage d st.view hStatus
  have hLogged : Wal.LoggedAt s.log t d lsn := by
    cases hView : st.view with
    | logged n =>
      rw [hView] at hStage hLsn
      cases hLsn
      exact hStage
    | stamped n | applied n =>
      rw [hView] at hStage hLsn
      cases hLsn
      exact hStage.1
    | _ =>
      rw [hView] at hLsn
      simp [Wal.Stage.lsn?] at hLsn
  rcases hLogged with ⟨r, hR, hTid, rfl, hBody⟩
  refine ⟨⟨r, hR, hTid, d, hBody, rfl⟩, ?_⟩
  exact (hInv.order.bounds hR).1

/- The page of a change gets the LSN of its record. -/
theorem stamp_view (hPhase : s.phase t = .op d (.logged lsn))
    (hRun : (s.db d.loc.tab).setPageLsn d.loc.rid lsn = .ok table) :
    (s.db d.loc.tab).KeepsPages table ∧
      ∀ ph, ((s.setTable d.loc.tab table).setPhase t ph).view =
        (s.view.setLsn d.loc.page lsn).setStatus t ph.view := by
  have hLsn := (changedBy_of_logged hInv hPhase rfl).2
  constructor
  · rcases setPageLsn_eq_ok hLsn hRun with ⟨_, rfl⟩
    exact .refl (s.db d.loc.tab)
  · intro ph
    rw [view_setPhase, view_setPageLsn s hLsn hRun]

include hWrite

omit hInv

/- An insert goes on to a stage the log does not see. -/
theorem advance_insert
    {st' : Stage}
    (hPhase : s.phase t = .op (.insert x rec) st)
    (hNew :
      s' = { s with
        db := db,
        locks := locks,
        txn := update s.txn t
          { s.txn t with phase := .op (.insert x rec) st' } })
    (hSteps : Wal.Steps (inRange db₀) s.view s'.view)
    (hLayout : s.db.SameLayout db)
    (hStage : st'.view.lsn? = none → st.view.lsn? = none) :
    Advance db₀ s s' t := by
  have hTurn : Turn s s' t { s.txn t with phase := .op (.insert x rec) st' } := by
    subst hNew
    exact ⟨by simp [hPhase], rfl, rfl, hLayout, rfl, Or.inl rfl, fun _ => Or.inl rfl⟩
  exact ⟨hSteps, hTurn.frame, hTurn.insert (hWrite.txns t) hPhase rfl rfl (by rw [hNew]) hStage
    (fun _ => Wal.untainted_of_steps hSteps)⟩

include hInv

omit hInv

variable (hBefore : d.before.isSome)
include hBefore

/- An update or a delete is not an insert. -/
omit hWrite in
theorem not_insert_of_before
    (x : Loc)
    (rec : RmRecord) :
    d ≠ .insert x rec := by
  rintro rfl
  simp [before] at hBefore

/- A stage of an update or a delete, after which it goes on or
  is rejected. -/
theorem advance_change (hPhase : s.phase t = .op d st)
    (hPh : (∃ st', ph = .op d st') ∨ ph = .failed)
    (hKeeps : (s.db d.loc.tab).KeepsPages table)
    (hSteps : Wal.Steps (inRange db₀) s.view
      ((s.setTable d.loc.tab table).setPhase t ph).view) :
    Advance db₀ s ((s.setTable d.loc.tab table).setPhase t ph)
      t := by
  have hNot := not_insert_of_before hBefore
  refine advance_quiet hWrite rfl hSteps (by simp [hPhase]) (sameLayout_setTable hKeeps) ?_ ?_
    (fun _ => Or.inl) ?_
  · intro x rec st'' h
    rcases hPh with ⟨st', rfl⟩ | rfl
    · exact hNot x rec (Phase.op.inj h).1
    · cases h
  · rcases hPh with ⟨st', rfl⟩ | rfl <;> simp
  · intro x rec st' h
    exact absurd (Phase.op.inj (hPhase.symm.trans h)).1 (hNot x rec)

include hInv

/- A logged update or delete stamps its page. -/
theorem stamp_advance (hPhase : s.phase t = .op d (.logged lsn))
    (hRun : (s.db d.loc.tab).setPageLsn d.loc.rid lsn = .ok table) :
    Advance db₀ s ((s.setTable d.loc.tab table).setPhase t
      (.op d (.stamped lsn))) t := by
  rcases stamp_view hInv hPhase hRun with ⟨hKeeps, hView⟩
  refine advance_change hWrite hBefore hPhase (Or.inl ⟨_, rfl⟩) hKeeps ?_
  rw [hView]
  have hStamp : Wal.Step (inRange db₀) s.view _ :=
    Wal.Step.stamp s.view t d lsn (status_of_phase hPhase)
  rw [if_pos hBefore] at hStamp
  exact .single hStamp

omit hInv

/- A stage that changes index entries of the row only. -/
theorem unindex_advance (hPhase : s.phase t = .op d (.stamped lsn))
    (hKeeps : (s.db d.loc.tab).KeepsPages table)
    (hImage : ∀ k, table.image k = (s.db d.loc.tab).image k) :
    Advance db₀ s ((s.setTable d.loc.tab table).setPhase t
      (.op d (.unindexed lsn))) t := by
  refine advance_change hWrite hBefore hPhase (Or.inl ⟨_, rfl⟩) hKeeps ?_
  rw [view_setIndexes s hImage (by rw [hPhase]; rfl)]

/- A logged change is rejected with the heap left as it is. -/
theorem spoil_advance
    (hPhase : s.phase t = .op d st)
    (hStage : st.view = .stamped lsn ∨ st.view = .applied lsn)
    (hKeeps : (s.db d.loc.tab).KeepsPages table)
    (hView : (s.setTable d.loc.tab table).view = s.view.setContent d.loc v) :
    Advance db₀ s ((s.setTable d.loc.tab table).setPhase t .failed) t := by
  refine advance_change hWrite hBefore hPhase (Or.inr rfl) hKeeps ?_
  rw [view_setPhase, hView]
  apply Relation.ReflTransGen.single
  refine Wal.Step.spoil s.view t d st.view lsn v ?_ hStage
  simp [view, hPhase, Phase.view]

/- The same when the heap operation itself has thrown. -/
theorem reject_advance (hPhase : s.phase t = .op d st)
    (hStage : st.view = .stamped lsn ∨ st.view = .applied lsn)
    (hKeeps : (s.db d.loc.tab).KeepsPages table)
    (hImage : ∀ k, table.image k = (s.db d.loc.tab).image k) :
    Advance db₀ s ((s.setTable d.loc.tab table).setPhase t .failed) t := by
  refine spoil_advance hWrite hBefore hPhase hStage hKeeps (v := s.db.record d.loc) ?_
  rw [view_setTable s hImage]
  exact (s.view.setContent_self d.loc).symm

include hInv

/- A change comes to rest with its write in the write set. -/
theorem finish_advance
    {w : WriteRecord}
    (hPhase : s.phase t = .op d st)
    (hLsn : st.view.lsn? = some lsn)
    (hW : w.changed? = some d.loc)
    (hKeeps : (s.db d.loc.tab).KeepsPages table)
    (hStep : Wal.Step (inRange db₀) s.view
      ((s.setTable d.loc.tab table).view.setStatus t .idle)) :
    Advance db₀ s (((s.setTable d.loc.tab table).appendWriteRecord t
      w).setPhase t .idle) t := by
  have hChanged := (changedBy_of_logged hInv hPhase hLsn).1
  have hNew : ((s.setTable d.loc.tab table).appendWriteRecord t w).setPhase t .idle =
        { s with
          db := (s.setTable d.loc.tab table).db,
          locks := s.locks,
          txn := update s.txn t
            { s.txn t with
              phase := .idle,
              writeSet := w :: (s.txn t).writeSet } } := by
    simp [setPhase, setTxn, appendWriteRecord, setTable]
  refine advance_quiet hWrite hNew ?_ (by simp [hPhase])
    (sameLayout_setTable hKeeps) (by simp) (by simp) ?_ ?_
  · rw [view_setPhase, view_appendWriteRecord]
    exact .single hStep
  · intro w' hW'
    rcases List.mem_cons.mp hW' with rfl | hOld
    · right
      intro x hX
      rw [hW] at hX
      cases hX
      exact hChanged
    · exact Or.inl hOld
  · intro x rec st' h
    exact absurd (Phase.op.inj (hPhase.symm.trans h)).1 (not_insert_of_before hBefore x rec)

omit hBefore

/- The next step of a row's change is one the machine can take. -/
theorem OpStep.advance
    (hPhase : s.phase t = .op d st)
    (hGuard : s.Orderly (.next t))
    (hOp : OpStep s t d st s') :
    Advance db₀ s s' t := by
  have hStatus := status_of_phase hPhase
  cases hOp with
  | lock x rec hFree =>
    refine advance_insert hWrite hPhase rfl ?_ (.refl _) (fun _ => rfl)
    rw [view_setPhase, view_setLock]
    exact .single (Wal.Step.acquire s.view t x rec hStatus hFree)
  | conflict x rec hHeld | duplicate x rec hRun => exact removePlaced_advance hWrite hInv hPhase rfl
  | index x rec tab hRun =>
    rcases insertKeys_eq_some hRun with ⟨indexes, -, rfl⟩
    refine advance_insert hWrite hPhase rfl ?_ (sameLayout_setTable (.refl _)) (fun _ => rfl)
    rw [view_setIndexes s ?_ (by rw [hPhase]; rfl)]
    exact fun _ => rfl
  | logInsert x rec => exact logOp_advance hWrite hPhase (Or.inl rfl) hGuard
  | logChange d hBefore => exact logOp_advance hWrite hPhase (Or.inr rfl) hGuard
  | stampInsert x rec lsn tab hRun =>
    rcases stamp_view hInv hPhase hRun with ⟨hKeeps, hView⟩
    refine advance_quiet hWrite rfl ?_ (by simp [hPhase])
      (sameLayout_setTable hKeeps) (by simp) ?_ (fun _ => Or.inl) ?_
    · have hStamp : Wal.Step (inRange db₀) s.view _ :=
        Wal.Step.stamp s.view t (.insert x rec) lsn hStatus
      exact .single ((hView .idle).symm ▸ hStamp)
    · intro _ _ _
      exact (hWrite.txns t).inserting x rec _ hPhase
    · intro y rec' st' hOp
      obtain ⟨⟨rfl, rfl⟩, _⟩ : (x = y ∧ rec = rec') ∧ Stage.logged lsn = st' := by
        simpa using hPhase.symm.trans hOp
      exact (changedBy_of_logged hInv hPhase rfl).1
  | stampChange d lsn tab hBefore hRun => exact stamp_advance hWrite hInv hBefore hPhase hRun
  | unindexUpdate x old new lsn | unindexDelete x rec lsn =>
    exact unindex_advance hWrite rfl hPhase (.refl _) (fun _ => rfl)
  | applyUpdate x old new lsn tab hRun =>
    rcases updateRecord_eq_ok hRun with ⟨hPage, rfl⟩
    refine advance_change hWrite rfl hPhase (Or.inl ⟨_, rfl⟩) (.refl _) ?_
    rw [view_setPhase, loc, view_setSlot s hPage (fun _ => rfl)]
    exact .single (Wal.Step.apply s.view t _ lsn hStatus)
  | applyDelete x rec lsn tab hRun =>
    rcases deleteRecord_eq_ok hRun with ⟨hPage, rfl⟩
    refine finish_advance hWrite hInv rfl hPhase rfl rfl (.refl _) ?_
    rw [loc, view_setSlot s hPage (fun _ => rfl)]
    exact Wal.Step.apply s.view t (.delete x rec) lsn hStatus
  | finish x old new lsn tab hRun =>
    rcases insertChangedKeys_eq_some hRun with ⟨indexes, -, rfl⟩
    refine finish_advance hWrite hInv rfl hPhase rfl rfl (.refl _) ?_
    rw [loc, view_setTable s ?_]
    · exact Wal.Step.finish s.view t _ lsn hStatus
    · exact fun _ => rfl
  | loseUpdate x old new lsn e hRun =>
    have hReject := reject_advance hWrite rfl hPhase (Or.inl rfl) (.refl _) (fun _ => rfl)
    rw [setTable_self] at hReject
    exact hReject
  | loseRestore x old new lsn e hKeys hRun =>
    have hReject := reject_advance hWrite rfl hPhase (Or.inr rfl) (.refl _) (fun _ => rfl)
    rw [setTable_self] at hReject
    exact hReject
  | loseDelete x rec lsn e hRun =>
    exact reject_advance hWrite rfl hPhase (Or.inl rfl) (.refl _) (fun _ => rfl)
  | restore x old new lsn tab hKeys hRun =>
    rcases updateRecord_eq_ok hRun with ⟨hPage, rfl⟩
    exact spoil_advance hWrite rfl hPhase (Or.inr rfl) (.refl _)
      (view_setSlot s hPage (fun _ => rfl))

end Executors

variable {hasWrites : Bool}

------------
-- Commit And Abort
------------

section Ends

variable {db₀ : Db} {s s' : Sys} {t : TxnId}

/- An abort takes back a write of a row that the transaction
  has logged. -/
theorem rollback_advance
    (owner : Option TxnId)
    (hWrite : WriteInv db₀ s)
    (hPhase : s.phase t = .aborting hasWrites)
    (hChanged : ChangedBy s.log t x)
    (hOwner : owner = s.locks x ∨ s.locks x = some t ∧ owner = none)
    (hView : s'.view = (s.view.setContent x v).setLock x owner)
    (hNext : s'.nextTxnId = s.nextTxnId)
    (hDisk : s'.disk = s.disk)
    (hLayout : s.db.SameLayout s'.db)
    (hTxn : s'.txn = s.txn)
    (hLog : s'.log = s.log)
    (hOwners : ∀ y, s'.physicalInsertOwners y = s.physicalInsertOwners y ∨
        s'.physicalInsertOwners y = none ∧ s.physicalInsertOwners y = some t) :
    Advance db₀ s s' t := by
  have hPh : (s.txn t).phase = .aborting hasWrites := hPhase
  have hTurn : Turn s s' t (s.txn t) :=
    ⟨by simp [hPhase], hNext, hDisk, hLayout, by simp [hTxn], Or.inl hLog, hOwners⟩
  refine ⟨?_, hTurn.frame, ?_⟩
  · rw [hView]
    apply Relation.ReflTransGen.single
    refine Wal.Step.rollback s.view t x v owner ?_ hChanged hOwner
    simp [view, hPhase, Phase.view]
  · exact hTurn.txnOk (hWrite.txns t) (by simp [hPh]) (by simp [hPh]) (fun _ => Or.inl)
      (by simp [hPhase])

variable (hWrite : WriteInv db₀ s)
include hWrite

/- A commit or abort record is logged. -/
theorem append_advance
    {body : LogBody}
    (hBegun : s.phase t ≠ .fresh)
    (hOld : ∀ d st, s.phase t ≠ .op d st)
    (hIdle : ph ≠ .idle)
    (hNew : ∀ d st, ph ≠ .op d st)
    (hSteps : Wal.Steps (inRange db₀) s.view
      ((s.addLogRecord t body).setPhase t ph).view) :
    Advance db₀ s ((s.addLogRecord t body).setPhase t ph) t := by
  have hTxn : ((s.addLogRecord t body).setPhase t ph).txn = update s.txn t
        { s.txn t with prevLsn := s.nextLsn, phase := ph } := by
    simp [setPhase, setTxn, addLogRecord]
  have hTurn : Turn s ((s.addLogRecord t body).setPhase t ph) t _ :=
    ⟨hBegun, rfl, rfl, .refl _, hTxn, Or.inr ⟨_, rfl, rfl⟩, fun _ => Or.inl rfl⟩
  exact ⟨hSteps, hTurn.frame, hTurn.txnOk (hWrite.txns t) (fun _ _ => hNew _)
    (fun h => absurd h hIdle) (fun _ => Or.inl) (fun x rec st h => absurd h (hOld _ st))⟩

/- A step that the machine does not see, or sees as a change
  of the transaction's status. -/
theorem turn_advance
    {locks : Loc → Option TxnId}
    (hBegun : s.phase t ≠ .fresh)
    (hOld : ∀ d st, s.phase t ≠ .op d st)
    (hIdle : ph ≠ .idle)
    (hNew : ∀ d st, ph ≠ .op d st)
    (hSteps : Wal.Steps (inRange db₀) s.view
      ({ s with locks := locks }.setPhase t ph).view) :
    Advance db₀ s ({ s with locks := locks }.setPhase t ph) t :=
  advance_quiet hWrite rfl hSteps hBegun (.refl _) (fun _ _ => hNew _)
    (fun h => absurd h hIdle) (fun _ => Or.inl) (fun _ _ st h => absurd h (hOld _ st))

theorem finishCommit_advance
    (hPhase : s.phase t = .commitFlushed) :
    Advance db₀ s (s.finishCommit t) t := by
  rcases finishCommit_eq s t with ⟨owners, hEq, hOwners⟩
  have hTurn : Turn s (s.finishCommit t) t
      { s.txn t with phase := .committed, writeSet := [] } := by
    rw [hEq]
    exact ⟨by simp [hPhase], rfl, rfl, .refl _, rfl, Or.inl rfl, hOwners⟩
  refine ⟨?_, hTurn.frame, ?_⟩
  · rw [hEq]
    have hStep : Wal.Step (inRange db₀) s.view ((s.view.dropLocks t).setStatus t .done) :=
      Wal.Step.release s.view t .done (Or.inr ⟨status_of_phase hPhase, rfl⟩)
    have hView := view_setTxn (s.unlockAll t) t ⟨.committed, [], (s.txn t).prevLsn⟩
    exact .single (hView ▸ hStep)
  · exact hTurn.txnOk (hWrite.txns t) (by simp) (by simp) (by simp) (by simp [hPhase])

variable (hPhase : s.phase t = .aborting hasWrites)
include hPhase

/- Taking back a delete or an update touches the heap only. -/
theorem restore_advance
    (hChanged : ChangedBy s.log t x)
    (hPage : (s.db x.tab).HasPage x.rid.pageNo)
    (hKeeps : (s.db x.tab).KeepsPages table)
    (hImage : ∀ k, table.image k =
      ((s.db x.tab).setSlot x.rid v).image k) :
    Advance db₀ s (s.setTable x.tab table) t := by
  refine rollback_advance _ hWrite hPhase hChanged (v := v)
    (Or.inl rfl) ?_ rfl rfl (sameLayout_setTable hKeeps) rfl rfl (fun _ => Or.inl rfl)
  rw [view_setSlot s hPage hImage]
  exact ((s.view.setContent x v).setLock_self x).symm

/- Taking back one write. -/
theorem Rollback.advance {w : WriteRecord}
    (hChanged : ∀ x, w.changed? = some x → ChangedBy s.log t x)
    (hBack : Rollback s t w s') : s' = s ∨ Advance db₀ s s' t := by
  cases hBack with
  | other x hOther => exact Or.inl rfl
  | delete x old hPage | update x old rec hPage =>
    exact Or.inr (restore_advance hWrite hPhase (hChanged x rfl) hPage (.refl _) (fun _ => rfl))
  | insert x rec hMine hPage =>
    right
    have hLogged : ChangedBy s.log t x := by
      rcases (hWrite.txns t).owner x hMine with h | ⟨rec, st, h⟩
      · exact h
      · cases hPhase.symm.trans h
    have hView := view_setSlot s (t := ((s.db x.tab).deleteIndexes rec).setSlot x.rid none) hPage
      (fun _ => rfl)
    have hOwners : ∀ y, Function.update s.physicalInsertOwners x none y = s.physicalInsertOwners y ∨
        Function.update s.physicalInsertOwners x none y = none ∧
          s.physicalInsertOwners y = some t := by
      intro y
      by_cases hY : y = x
      · subst hY
        exact Or.inr ⟨update_self .., hMine⟩
      · exact Or.inl (update_of_ne hY _ _)
    by_cases hLock : s.locks x = some t
    · simp only [if_pos hLock]
      refine rollback_advance none hWrite hPhase hLogged (v := none) (Or.inr ⟨hLock, rfl⟩)
        ?_ rfl rfl (sameLayout_update (.refl _)) rfl rfl hOwners
      rw [← hView]
      rfl
    · simp only [if_neg hLock]
      refine rollback_advance _ hWrite hPhase hLogged (v := none) (Or.inl rfl)
        ?_ rfl rfl (sameLayout_update (.refl _)) rfl rfl hOwners
      exact hView.trans ((s.view.setContent x none).setLock_self x).symm

/- Taking the latest write off the write set. -/
theorem setWriteSet_advance {ws : List WriteRecord}
    (hSub : ∀ w ∈ ws, w ∈ (s.txn t).writeSet) :
    Advance db₀ s (s.setWriteSet t ws) t := by
  have hPh : (s.txn t).phase = .aborting hasWrites := hPhase
  have hTurn : Turn s (s.setWriteSet t ws) t _ :=
    ⟨by simp [hPhase], rfl, rfl, .refl _, rfl, Or.inl rfl, fun _ => Or.inl rfl⟩
  refine ⟨?_, hTurn.frame, ?_⟩
  · unfold setWriteSet
    rw [view_setTxn_same s t _ (by rfl)]
  · exact hTurn.txnOk (hWrite.txns t) (by simp [hPh]) (by simp [hPh])
      (fun w hW => Or.inl (hSub w hW))
      (by simp [hPhase])

end Ends

------------
-- Steps Of The Server
------------

section Server

variable {db₀ : Db} {s s' : Sys}

/- The machine can follow a step of the server, and the write
  sets are in order after it. -/
def Refines (db₀ : Db) (s s' : Sys) : Prop :=
  Wal.Steps (inRange db₀) s.view s'.view ∧ WriteInv db₀ s'

theorem Advance.refines
    (hAdvance : Advance db₀ s s' t)
    (hWrite : WriteInv db₀ s)
    (hInv : Wal.Inv (inRange db₀) s.view) :
    Refines db₀ s s' :=
  ⟨hAdvance.steps, hWrite.advance hInv hAdvance⟩

theorem Refines.trans
    {s₁ : Sys}
    (hFirst : Refines db₀ s s₁)
    (hSecond : Refines db₀ s₁ s') :
    Refines db₀ s s' := ⟨hFirst.1.trans hSecond.1, hSecond.2⟩

variable (hWrite : WriteInv db₀ s)
include hWrite

/- Log flushes, write-backs and checkpoints keep the writes. -/
theorem WriteInv.keep
    (hTxn : s'.txn = s.txn)
    (hNext : s'.nextTxnId = s.nextTxnId)
    (hDb : s'.db = s.db)
    (hOwners : s'.physicalInsertOwners = s.physicalInsertOwners)
    (hLog : ∀ t x, ChangedBy s'.log t x ↔ ChangedBy s.log t x)
    (hDisk : db₀.SameLayout s'.disk) :
    WriteInv db₀ s' := by
  have hPhase : ∀ t, s'.phase t = s.phase t := by
    intro t
    simp [phase, hTxn]
  refine ⟨?_, ?_, hDisk, ?_⟩
  · intro t hT
    rw [hPhase]
    apply hWrite.fresh
    simpa [begun, hNext] using hT
  · rw [hDb]
    exact hWrite.layout
  · intro t
    have hOk := hWrite.txns t
    constructor
    · simpa only [hPhase, hTxn, hLog] using hOk.idle
    · simpa only [hPhase, hTxn] using hOk.inserting
    · simpa only [hTxn, hLog] using hOk.changed
    · simpa only [hPhase, hOwners, hLog] using hOk.owner
    · intro x rec st hOp hUnlogged hClean
      rw [hPhase] at hOp
      rw [hOwners]
      refine hOk.place x rec st hOp hUnlogged ?_
      intro u hDoomed hChanged
      refine hClean u ?_ ((hLog u x).mpr hChanged)
      simpa [view, hPhase] using hDoomed

theorem WriteInv.setDisk {tab : TabName}
    (hKeeps : (s.disk tab).KeepsPages table) :
    db₀.SameLayout (update s.disk tab table) :=
  hWrite.diskLayout.trans (sameLayout_update hKeeps)

variable (hInv : Wal.Inv (inRange db₀) s.view)
include hInv

theorem flush_refines : Refines db₀ s { s with flushed := s.log.length } := by
  constructor
  · apply Relation.ReflTransGen.single
    exact Wal.Step.flush s.view s.log.length hInv.disk.flushed (le_refl _)
  · exact hWrite.keep rfl rfl rfl rfl (fun _ _ => Iff.rfl) hWrite.diskLayout

theorem flushLogToDisk_refines (lsn : Int) :
    Refines db₀ s (s.flushLogToDisk lsn) := by
  unfold flushLogToDisk
  split
  · exact flush_refines hWrite hInv
  · exact ⟨Relation.ReflTransGen.refl, hWrite⟩

theorem begin_refines : Refines db₀ s s.begin := by
  have hNew : (s.nextTxnId : TxnId) ∉ s.begun := by simp [begun]
  have hFresh := hWrite.fresh _ hNew
  have hStatus := status_of_phase hFresh
  have hNone := (hInv.status s.nextTxnId).fresh hStatus
  have hView : s.begin.view = s.view.setStatus s.nextTxnId .idle :=
    view_setTxn s s.nextTxnId ⟨.idle, [], invalidLsn⟩
  have hSteps : Wal.Steps (inRange db₀) s.view s.begin.view := by
    rw [hView]
    exact .single (Wal.Step.begin s.view _ hStatus)
  refine ⟨hSteps, ?_, hWrite.layout, hWrite.diskLayout, ?_⟩
  · intro t hT
    have hOld : t ∉ s.begun ∧ t ≠ s.nextTxnId := by
      have hRange : s.begin.begun = s.begun ++ [(s.nextTxnId : TxnId)] := by
        simp [begun, begin, List.range_succ]
      rw [hRange] at hT
      simpa using hT
    simpa [phase, begin, hOld.2] using hWrite.fresh t hOld.1
  · intro t
    have hOk := hWrite.txns t
    by_cases hT : t = s.nextTxnId
    · subst hT
      constructor
      · intro _ x hChanged
        exact absurd hChanged (hNone x)
      · simp [phase, begin]
      · simp [begin]
      · intro x hMine
        rcases hOk.owner x hMine with h | ⟨rec, st, h⟩
        · exact Or.inl h
        · cases hFresh.symm.trans h
      · simp [phase, begin]
    · have hTxn : s.begin.txn t = s.txn t := by simp [begin, hT]
      have hLog : s.begin.log = s.log := rfl
      have hOwners : s.begin.physicalInsertOwners =
          s.physicalInsertOwners := rfl
      constructor
      · simpa only [phase, hTxn, hLog] using hOk.idle
      · simpa only [phase, hTxn] using hOk.inserting
      · simpa only [hTxn, hLog] using hOk.changed
      · simpa only [phase, hTxn, hLog, hOwners] using hOk.owner
      · intro x rec st hOp hUnlogged hClean
        refine hOk.place x rec st ?_ hUnlogged (Wal.untainted_of_steps hSteps hClean)
        simpa only [phase, hTxn] using hOp

/- No change of the page is torn. -/
omit hInv in
theorem not_torn_of_guard
    {P : PageId}
    (hGuard : ∀ u ∈ s.begun, (s.phase u).torn? ≠ some P) :
    ∀ u d st, s.view.status u = .op d st → d.loc.page = P →
      ¬ Wal.Torn d st := by
  have hAll := forall_of_begun (p := fun ph => ph.torn? ≠ some P) hWrite
    (by simp [Phase.torn?]) hGuard
  intro u d st hStatus hPage hTorn
  rcases op_of_status hStatus with ⟨st', hPhase, rfl⟩
  apply hAll u
  rw [hPhase, ← hPage]
  cases d <;> cases st' <;> first
    | rfl
    | simp [Wal.Torn, Stage.view] at hTorn

theorem flushPage_refines
    {P : PageId}
    (hGuard : ∀ u ∈ s.begun, (s.phase u).torn? ≠ some P) :
    Refines db₀ s { s.flushLogToDisk (s.db.image P).lsn with
      disk := update s.disk P.tab
        ((s.disk P.tab).setPage P.pageNo (s.db.image P)) } := by
  have hFlush := flushLogToDisk_refines hWrite hInv (s.db.image P).lsn
  rw [flushLogToDisk_eq] at hFlush ⊢
  refine ⟨hFlush.1.tail (Wal.Step.writeBack _ _ ?_), ?_⟩
  · intro Q
    rcases image_writeBack s.disk P (s.db.image P) Q with hSame | ⟨rfl, hNew⟩
    · exact Or.inl hSame
    · refine Or.inr ⟨hNew, ?_, not_torn_of_guard hWrite hGuard⟩
      have hBound : (s.db.image Q).lsn < s.log.length := (hInv.stamps.bounds Q).2
      simp only [view]
      split <;> omega
  · exact hFlush.2.keep rfl rfl rfl rfl (fun _ _ => Iff.rfl) (hWrite.setDisk (.refl _))

theorem checkpoint_refines
    (hGuard : ∀ u ∈ s.begun, (s.phase u).torn? = none) :
    Refines db₀ s s.checkpoint := by
  have hLog : ∀ t x, ChangedBy s.checkpoint.log t x ↔ ChangedBy s.log t x := by
    intro t x
    unfold checkpoint
    rw [changedBy_concat]
    have hNo : ¬ Changes x ⟨s.nextLsn, invalidTxnId, invalidLsn, .checkpoint⟩ := by
      rintro ⟨d, hBody, _⟩
      cases hBody
    simp [hNo]
  constructor
  · -- the record, the log flush and the pages
    let noted :=
      s.view.append invalidTxnId invalidLsn .checkpoint
    have hNote : Wal.Step (inRange db₀) s.view noted := Wal.Step.note s.view _ _ _ (Or.inr rfl)
    have hFlushed := hInv.disk.flushed
    have hFlush : Wal.Step (inRange db₀) noted { noted with flushed := s.log.length + 1 } := by
      refine Wal.Step.flush noted (s.log.length + 1) ?_ ?_
      · exact le_trans hFlushed (Nat.le_succ _)
      · simp [noted, Wal.State.append, view]
    refine ((Relation.ReflTransGen.single hNote).tail hFlush).tail ?_
    refine Wal.Step.writeBack _ s.db.image ?_
    intro P
    right
    refine ⟨rfl, ?_, ?_⟩
    · have hBound := (hInv.stamps.bounds P).2
      have hBound' : (s.db.image P).lsn < s.log.length := hBound
      show (s.db.image P).lsn < ((s.log.length + 1 : Nat) : Int)
      omega
    · have hPage : ∀ u ∈ s.begun, (s.phase u).torn? ≠ some P := by
        intro u hU
        rw [hGuard u hU]
        simp
      exact not_torn_of_guard hWrite hPage
  · exact hWrite.keep rfl rfl rfl rfl hLog hWrite.layout

------------
-- Every Step And Every Run
------------

theorem rollback_refines
    {w : WriteRecord}
    {rest : List WriteRecord}
    (hPhase : s.phase t = .aborting hasWrites)
    (hSet : (s.txn t).writeSet = w :: rest)
    (hBack : Rollback (s.setWriteSet t rest) t w s') :
    Refines db₀ s s' := by
  have hPop : Advance db₀ s (s.setWriteSet t rest) t := by
    refine setWriteSet_advance hWrite hPhase ?_
    intro w' hW
    rw [hSet]
    exact List.mem_cons_of_mem _ hW
  have hFirst := hPop.refines hWrite hInv
  have hPhase' : (s.setWriteSet t rest).phase t = .aborting hasWrites := by
    simpa [phase, setWriteSet, setTxn] using hPhase
  have hChanged : ∀ x, w.changed? = some x → ChangedBy (s.setWriteSet t rest).log t x := by
    intro x hX
    exact (hWrite.txns t).changed w (by simp [hSet]) x hX
  rcases hBack.advance hFirst.2 hPhase' hChanged with rfl | hAdvance
  · exact hFirst
  · exact hFirst.trans (hAdvance.refines hFirst.2 (Wal.inv_steps hFirst.1 hInv))

/- A flush of the log, after which a phase is over. -/
theorem flushed_refines
    (hView : ph.view = (s.phase t).view)
    (hBegun : s.phase t ≠ .fresh)
    (hIdle : ph ≠ .idle)
    (hOld : ∀ d st, s.phase t ≠ .op d st)
    (hNew : ∀ d st, ph ≠ .op d st) :
    Refines db₀ s ((s.flushLogToDisk lsn).setPhase t ph) := by
  have hFlush := flushLogToDisk_refines hWrite hInv lsn
  have hPhase : (s.flushLogToDisk lsn).phase t = s.phase t := by
    unfold flushLogToDisk
    split <;> rfl
  refine hFlush.trans (Advance.refines (t := t) ?_ hFlush.2 (Wal.inv_steps hFlush.1 hInv))
  refine advance_quiet hFlush.2 rfl ?_ (by rwa [hPhase]) (.refl _) (fun _ _ => hNew _)
    (fun h => absurd h hIdle) (fun _ => Or.inl) ?_
  · rw [view_setPhase_same _ t ph (by rw [hPhase, hView])]
  · intro x rec st h
    exact absurd (hPhase.symm.trans h) (hOld _ st)

/- Every orderly step of the server is a sequence of steps of
  the write-ahead machine. -/
theorem step_refines
    {a : Act}
    (hGuard : s.Orderly a)
    (hStep : s.step a = some s') :
    Refines db₀ s s' := by
  have hAdvance : ∀ {t}, Advance db₀ s s' t → Refines db₀ s s' :=
    fun h => h.refines hWrite hInv
  cases step_cases hStep with
  | begin => exact begin_refines hWrite hInv
  | place t x rec tab hIdle hRun => exact hAdvance (place_advance hWrite hIdle hRun rfl)
  | update t x newRec _ hChange | delete t x _ hChange =>
    exact hAdvance (hChange.advance hWrite (by simp [loc, before]) hGuard)
  | lockRow t x _ hLock => exact hAdvance (hLock.advance hWrite)
  | throw t hIdle => exact hAdvance (fail_advance hWrite hIdle rfl)
  | conflict t x rec hPhase => exact hAdvance (removePlaced_advance hWrite hInv hPhase rfl)
  | quietCommit t hIdle hEmpty =>
    apply hAdvance
    refine turn_advance hWrite (by simp [hIdle]) (by simp [hIdle]) (by simp) (by simp) ?_
    rw [view_setPhase]
    refine .single (Wal.Step.quiet s.view t (status_of_phase hIdle) ?_)
    intro x hChanged
    exact (hWrite.txns t).idle hIdle x hChanged hEmpty
  | logCommit t hIdle =>
    apply hAdvance
    refine append_advance hWrite (by simp [hIdle]) (by simp [hIdle]) (by simp) (by simp) ?_
    rw [view_setPhase, view_addLogRecord]
    exact .single (Wal.Step.commit s.view t _ (status_of_phase hIdle))
  | startAbort t hPhase =>
    apply hAdvance
    rcases hPhase with hIdle | hFailed
    · exact fail_advance hWrite hIdle rfl
    · refine turn_advance hWrite (by simp [hFailed]) (by simp [hFailed]) (by simp) (by simp) ?_
      rw [view_setPhase_same _ t _ ?_]
      exact (status_of_phase hFailed).symm
  | op t d st _ hPhase hOp => exact hAdvance (hOp.advance hWrite hInv hPhase hGuard)
  | flushCommit t lsn hPhase | flushAbort t lsn hPhase =>
    exact flushed_refines hWrite hInv (by rw [hPhase]; rfl)
      (by simp [hPhase]) (by simp) (by simp [hPhase]) (by simp)
  | finishCommit t hPhase => exact hAdvance (finishCommit_advance hWrite hPhase)
  | unlock t hasWrites hPhase =>
    apply hAdvance
    refine turn_advance hWrite (by simp [hPhase]) (by simp [hPhase]) (by simp) (by simp) ?_
    rw [view_setPhase]
    exact .single (Wal.Step.release s.view t .doomed (Or.inl ⟨status_of_phase hPhase, rfl⟩))
  | rollback t hasWrites w rest _ hPhase hSet hBack =>
    exact rollback_refines hWrite hInv hPhase hSet hBack
  | logAbort t hPhase =>
    apply hAdvance
    refine append_advance hWrite (by simp [hPhase]) (by simp [hPhase]) (by simp) (by simp) ?_
    rw [view_setPhase_same _ t _ ?_, view_addLogRecord]
    · exact .single (Wal.Step.note s.view t _ .abort (Or.inl ⟨status_of_phase hPhase, rfl⟩))
    · have hSame : (s.addLogRecord t .abort).phase t = s.phase t := by
        simp [phase, addLogRecord]
      rw [hSame, hPhase]
      rfl
  | quietAbort t hPhase =>
    apply hAdvance
    refine turn_advance hWrite (by simp [hPhase]) (by simp [hPhase]) (by simp) (by simp) ?_
    rw [view_setPhase_same _ t _ ?_]
    exact (status_of_phase hPhase).symm
  | flushLog => exact flush_refines hWrite hInv
  | flushPage P hPage => exact flushPage_refines hWrite hInv hGuard
  | flushIndex tab i entries old hOld =>
    refine ⟨?_, hWrite.keep rfl rfl rfl rfl (fun _ _ => Iff.rfl) (hWrite.setDisk (.refl _))⟩
    unfold view
    rw [image_setIndexes]
    exact .refl
  | checkpoint => exact checkpoint_refines hWrite hInv hGuard

omit hWrite hInv

/- Empty tables have no pages. -/
theorem image_of_empty
    (hEmpty : db.Empty)
    (P : PageId) :
    db.image P = blankPage := by
  apply image_of_not_hasPage
  rintro ⟨hFirst, hLast⟩
  rw [(hEmpty P.tab).1] at hLast
  omega

theorem inv_init
    (hEmpty : db₀.Empty) :
    WriteInv db₀ (init db₀) ∧ Wal.Inv (inRange db₀) (init db₀).view := by
  have hNone : ∀ t x, ¬ ChangedBy (init db₀).log t x := by
    rintro t x ⟨r, hR, _⟩
    simp [init] at hR
  constructor
  · refine ⟨fun _ _ => rfl, .refl _, .refl _, ?_⟩
    intro t
    constructor
    · intro _ x h
      exact absurd h (hNone t x)
    · simp [phase, init]
    · simp [init]
    · simp [init]
    · simp [phase, init]
  · apply Wal.inv_init
    · rfl
    · exact fun _ => rfl
    · intro x
      have hBlank := image_of_empty hEmpty x.page
      exact congrArg (fun p : Page => p.val x.rid.slotNo) hBlank
    · intro P
      exact congrArg PageRecovery.Image.lsn (image_of_empty hEmpty P)
    · exact image_of_empty hEmpty
    · rfl

/- The invariants hold along every orderly run. -/
theorem inv_run
    {acts : List Act}
    (hEmpty : db₀.Empty)
    (hGuard : StepSystem.Guarded step Orderly (init db₀) acts)
    (hRun : StepSystem.run step (init db₀) acts = some s) :
    WriteInv db₀ s ∧ Wal.Inv (inRange db₀) s.view := by
  refine StepSystem.invariant_of_guarded_run
    (fun s => WriteInv db₀ s ∧ Wal.Inv (inRange db₀) s.view) ?_ (inv_init hEmpty) hGuard hRun
  rintro s a s' ⟨hWrite, hInv⟩ hOrderly hStep
  have hNext := step_refines hWrite hInv hOrderly hStep
  exact ⟨hNext.2, Wal.inv_steps hNext.1 hInv⟩

end Server

end Sys

end Rmdb
