import Rmdb.Transaction.Crash

/-
  This file settles what recovery makes of the heap.  If every
  step is orderly and no transaction commits a change of a row
  that a doomed transaction changed before it, then recovery
  leaves exactly the changes of the committed transactions, in
  log order.

  An abort writes no compensation records, and undo restores
  the before-images of aborted transactions as well, so the
  second condition cannot be dropped: the file ends with a run
  in which a committed insert is lost.

  Key definitions include:
    * `committedLog`
    * `Sys.HeapGuard`
    * `Sys.CommitOrder`

  Key theorems include:
    * `Sys.commitOrder_step`
    * `Sys.recover_committed`
    * `Sys.heap_follows_log`
-/

namespace Rmdb

open StepSystem List Log Wal

------------
-- The Condition
------------

/- The row that a log record changes. -/
def LogRecord.loc? (r : LogRecord) : Option Loc :=
  r.data?.map DataRecord.loc

variable {r : LogRecord} {x : Loc}

theorem loc?_eq_some : r.loc? = some x ↔ Changes x r := by
  rw [changes_iff, LogRecord.loc?, Option.map_eq_some_iff]

/- The operations of the committed transactions of a log. -/
def committedLog (logs : List LogRecord) : List LogRecord :=
  logs.filter (fun r => HasCommit logs r.tid)

/- A statement has thrown, or the transaction aborts. -/
def Phase.doomed : Phase → Bool
| .failed => true
| .aborting _ => true
| .unlocked _ => true
| .abortLogged _ => true
| .aborted => true
| _ => false

theorem Phase.doomed_iff (ph : Phase) :
    ph.doomed = true ↔ ph.view = .doomed := by
  cases ph <;> simp [doomed, view]

namespace Sys

/- No row that the transaction changed was changed before by a
  doomed transaction. -/
def Undisturbed (s : Sys) (t : TxnId) : Prop :=
  ∀ r ∈ s.log, r.tid = t → ∀ a ∈ s.log, a.lsn < r.lsn →
    ∀ x ∈ a.loc?, r.loc? = some x →
      (s.phase a.tid).doomed = false

/- Besides, a transaction commits only changes of undisturbed
  rows. -/
def HeapGuard (s : Sys) :
    Act → Prop
| .startCommit t => s.Undisturbed t
| a => s.DiskGuard a

instance (s : Sys) (t : TxnId) : Decidable (s.Undisturbed t) := by
  unfold Undisturbed
  infer_instance

instance (s : Sys) (a : Act) : Decidable (s.HeapGuard a) := by
  apply Act.casesOn (motive := fun a => Decidable (s.HeapGuard a)) a <;>
    intros <;> unfold HeapGuard <;>
    infer_instance

theorem HeapGuard.orderly
    {s : Sys}
    {a : Act}
    (hGuard : s.HeapGuard a) :
    s.Orderly a := by
  cases a with
  | startCommit t => exact trivial
  | _ => exact DiskGuard.orderly hGuard

------------
-- Committed Changes Follow Committed Changes
------------

/- Who changed a row before a committed transaction committed
  before that change. -/
def CommitOrder (log : List LogRecord) : Prop :=
  ∀ r ∈ log, ∀ r' ∈ log, ∀ x,
    Log.Changes x r → Log.Changes x r' → r.lsn < r'.lsn →
    r.tid ≠ r'.tid → HasCommit log r'.tid →
    Wal.CommittedBefore log r.tid r'.lsn

variable {log : List LogRecord}

/- A record is appended that makes no transaction committed. -/
theorem CommitOrder.concat
    (hOrder : CommitOrder log)
    (hOld : ∀ a ∈ log, a.lsn < r.lsn)
    (hCommit : r.body ≠ .commit)
    (hData : ∀ d, r.body = .data d → ¬ HasCommit log r.tid) :
    CommitOrder (log ++ [r]) := by
  intro a hA b hB x hAx hBx hLt hNe hBoth
  have hBoth' : HasCommit log b.tid := by
    rw [hasCommit_concat] at hBoth
    rcases hBoth with h | h
    · exact h
    · exact absurd h.1 hCommit
  rcases mem_concat.mp hB with hBOld | rfl
  · rcases mem_concat.mp hA with hAOld | rfl
    · rcases hOrder a hAOld b hBOld x hAx hBx hLt hNe hBoth'
        with ⟨e, hE, hRest⟩
      exact ⟨e, mem_append_left _ hE, hRest⟩
    · have := hOld b hBOld
      omega
  · rcases hBx with ⟨d, hBody, _⟩
    exact absurd hBoth' (hData d hBody)

section Step

variable {db₀ : Db} {s s' : Sys} {a : Act}

/- A transaction that commits undisturbed changes. -/
theorem commitOrder_commit
    {t : TxnId}
    (hInv : Inv (inRange db₀) s.view)
    (hOrder : CommitOrder s.log)
    (hGuard : s.Undisturbed t)
    (hTid : r.tid = t)
    (hBody : r.body = .commit) :
    CommitOrder (s.log ++ [r]) := by
  have hQuiet : ∀ x, ¬ Changes x r := by
    rintro x ⟨d, hData, _⟩
    rw [hBody] at hData
    cases hData
  have hOldMem : ∀ b ∈ s.log ++ [r], ∀ x, Changes x b → b ∈ s.log := by
    intro b hB x hBx
    rcases mem_concat.mp hB with h | rfl
    · exact h
    · exact absurd hBx (hQuiet x)
  intro a hA b hB x hAx hBx hLt hNe hCommit
  have hAOld := hOldMem a hA x hAx
  have hBOld := hOldMem b hB x hBx
  have hBefore : CommittedBefore s.log a.tid b.lsn := by
    rw [hasCommit_concat] at hCommit
    rcases hCommit with hOld | ⟨_, hNew⟩
    · exact hOrder a hAOld b hBOld x hAx hBx hLt hNe hOld
    · rcases hInv.changes a hAOld b hBOld x hAx hBx hLt hNe with
        hDoomed | h
      · have hPhase := (Phase.doomed_iff _).mpr hDoomed
        have hClean := hGuard b hBOld (hNew.symm.trans hTid) a hAOld hLt x (loc?_eq_some.mpr hAx)
          (loc?_eq_some.mpr hBx)
        rw [hPhase] at hClean
        cases hClean
      · exact h
  rcases hBefore with ⟨e, hE, hRest⟩
  exact ⟨e, mem_append_left _ hE, hRest⟩

theorem commitOrder_step
    (hInv : Inv (inRange db₀) s.view)
    (hOrder : CommitOrder s.log)
    (hGuard : s.HeapGuard a)
    (hStep : s.step a = some s') :
    CommitOrder s'.log := by
  have hOld : ∀ b ∈ s.log, b.lsn < s.nextLsn := fun b hB => (hInv.order.bounds hB).2
  cases (step_cases hStep).appends with
  | nothing hLog =>
    rw [hLog]
    exact hOrder
  | data t d st hPhase hLog =>
    rw [hLog]
    refine hOrder.concat hOld (by simp) ?_
    intro _ _ hCommit
    have hStatus : s.view.status t = .op d st.view := by simp [view, hPhase, Phase.view]
    rcases (hInv.status t).commit hCommit with h | h
    · cases hStatus.symm.trans h
    · cases hStatus.symm.trans h
  | commit t hAct hPhase hLog =>
    rw [hLog]
    subst hAct
    exact commitOrder_commit hInv hOrder hGuard rfl rfl
  | abort t hPhase hLog | checkpoint hLog =>
    rw [hLog]
    exact hOrder.concat hOld (by simp) (by simp)

end Step

------------
-- Recovery Of The Heap
------------

section Recovery

variable {db₀ : Db} {s : Sys} {k : Nat}

/- Who changed a row before a surviving committed transaction
  has its commit record in the surviving log as well. -/
theorem hasCommit_of_earlier
    {r' : LogRecord}
    (hInv : Inv (inRange db₀) s.view)
    (hCommits : CommitOrder s.log)
    (hR : r ∈ s.log)
    (hR' : r' ∈ s.log.take k)
    (hX : Changes x r)
    (hX' : Changes x r')
    (hLt : r.lsn < r'.lsn)
    (hCommit : HasCommit (s.log.take k) r'.tid) :
    HasCommit (s.log.take k) r.tid := by
  have hOrder : Log.InOrder s.log := hInv.order
  by_cases hNe : r.tid = r'.tid
  · rw [hNe]
    exact hCommit
  · have hMem := mem_of_mem_take hR'
    have hBelow := (hOrder.mem_take_iff hMem k).mp hR'
    rcases hCommits r hR r' hMem x hX hX' hLt hNe
      (hasCommit_of_take hCommit) with ⟨e, hE, hBody, hTid, hLsn⟩
    refine ⟨e, ?_, hBody, hTid⟩
    rw [hOrder.mem_take_iff hE]
    omega

/- On every slot the winners come before the losers. -/
theorem winners_first
    (hInv : Inv (inRange db₀) s.view)
    (hCommits : CommitOrder s.log)
    (P : PageId) :
    ∀ a ∈ pageLog P (s.log.take k), ∀ b ∈ pageLog P (s.log.take k),
        a.slot = b.slot →
        a.lsn < b.lsn → b.winner = true → a.winner = true := by
  intro a hA b hB hSlot hLt hWin
  rcases mem_entriesOn.mp hA with ⟨r, hR, d, hBody, hPage, rfl⟩
  rcases mem_entriesOn.mp hB with ⟨r', hR', d', hBody', hPage', rfl⟩
  have hLoc : d.loc = d'.loc := by
    have hSlotLoc := loc_eq_slotLoc_iff.mpr
      ⟨hPage, (hSlot : d.loc.rid.slotNo = d'.loc.rid.slotNo)⟩
    have hSlotLoc' := loc_eq_slotLoc_iff.mpr
      ⟨hPage', (rfl : d'.loc.rid.slotNo = d'.loc.rid.slotNo)⟩
    exact hSlotLoc.trans hSlotLoc'.symm
  have hCommit : HasCommit (s.log.take k) r'.tid := of_decide_eq_true hWin
  exact decide_eq_true (hasCommit_of_earlier hInv hCommits (mem_of_mem_take hR) hR' ⟨d, hBody, hLoc⟩
    ⟨d', hBody', rfl⟩ hLt hCommit)

/- A row with a value has a record that put it there. -/
theorem exists_creates_of_value (hValue : value x log ≠ none) :
    ∃ a ∈ log, ∃ e, a.body = .data e ∧ e.loc = x ∧
      e.creates := by
  induction log using reverseRecOn with
  | nil => exact absurd rfl hValue
  | append_singleton log r ih =>
    rw [value_concat] at hValue
    by_cases hChanges : Changes x r
    · rcases hChanges with ⟨d, hBody, hLoc⟩
      rw [applyTo_of_changes hBody hLoc] at hValue
      refine ⟨r, by simp, d, hBody, hLoc, ?_⟩
      exact Option.isSome_iff_ne_none.mpr hValue
    · rw [applyTo_of_not_changes hChanges] at hValue
      rcases ih hValue with ⟨a, hA, hRest⟩
      exact ⟨a, mem_append_left _ hA, hRest⟩

/- A committed delete follows a committed record that created
  its page, so that redo never meets a missing page. -/
theorem redoEntries_winnerLogs
    (hInv : Inv (inRange db₀) s.view)
    (hCommits : CommitOrder s.log)
    (P : PageId)
    (n : Int) :
    redoEntries P n (winnerLogs (s.log.take k)) =
      PageRecovery.winners (pageLog P (s.log.take k)) := by
  have hOrder : Log.InOrder s.log := hInv.order
  rw [← entriesOn_winnerLogs]
  apply redoEntries_of_created
  · exact (hOrder.take k).pairwise.filter _
  · intro r hR d hBody hPage
    have hTake := mem_of_mem_filter hR
    have hMem := mem_of_mem_take hTake
    have hCommit : HasCommit (s.log.take k) r.tid := by
      have := of_mem_filter hR
      simpa [mem_committedTxns] using this
    by_cases hCreates : d.creates
    · exact Or.inl hCreates
    · -- a delete: its before-image came from a logged change
      refine Or.inr (Or.inr ?_)
      have hBefore := hInv.before r hMem d hBody (by
        intro a hA hAx hLt
        exact not_doomed_of_hasCommit hInv (hasCommit_of_take
          (hasCommit_of_earlier hInv hCommits hA hTake hAx ⟨d, hBody, rfl⟩ hLt hCommit)))
      have hSome : d.before ≠ none := by
        cases d with
        | insert x rec | update x old new => exact absurd rfl hCreates
        | delete x rec => simp [DataRecord.before]
      rw [hBefore] at hSome
      rcases exists_creates_of_value hSome with ⟨a, hA, e, hE, hLoc, hNew⟩
      have hAMem : a ∈ s.log := mem_of_mem_filter hA
      have hLt : a.lsn < r.lsn := by
        have hLe := of_mem_filter hA
        simp only [decide_eq_true_eq] at hLe
        omega
      have hBelow := (hOrder.mem_take_iff hMem k).mp hTake
      refine ⟨a, ?_, e, hE, by rw [hLoc, hPage], hNew, hLt⟩
      refine mem_filter.mpr ⟨?_, ?_⟩
      · rw [hOrder.mem_take_iff hAMem]
        omega
      · have hACommit := hasCommit_of_earlier hInv hCommits
          hAMem hTake ⟨e, hE, hLoc⟩ ⟨d, hBody, rfl⟩ hLt hCommit
        simpa [mem_committedTxns] using hACommit

/- Recovery of the files that a crash leaves. -/
theorem recover_crash
    {files : Files}
    (hWrite : WriteInv db₀ s)
    (hInv : Inv (inRange db₀) s.view)
    (hCommits : CommitOrder s.log)
    (hCrash : s.flushed ≤ k)
    (hDisk : files.db = s.disk)
    (hSound : files.Sound) :
    ∃ files', recover (s.log.take k) files = .ok files' ∧
      ∀ x, files'.db.record x =
        value x (committedLog (s.log.take k)) := by
  have hRange : InRange files.db (s.log.take k) := by
    rw [hDisk]
    exact crash_inRange hWrite hInv
  rcases recover_spec hSound hRange (crash_clean hInv) with
    ⟨files', hRun, hImage⟩
  refine ⟨files', hRun, ?_⟩
  intro x
  by_cases hFirst : firstRecordPage ≤ x.rid.pageNo
  · have hPage : files'.db.image x.page =
        PageRecovery.recover (pageLog x.page (s.log.take k))
          (s.disk.image x.page) := by
      rw [hImage x.page hFirst,
        redoEntries_winnerLogs hInv hCommits,
        PageRecovery.recover_eq, hDisk]
    calc
      files'.db.record x =
          (files'.db.image x.page).val x.rid.slotNo :=
        Db.record_eq files'.db x
      _ = PageRecovery.replay none (PageRecovery.on x.rid.slotNo (PageRecovery.winners
                (pageLog x.page (s.log.take k)))) := by
        rw [hPage]
        exact PageRecovery.recover_eq_winners (crash_history hInv x.page)
          (winners_first hInv hCommits x.page) (crash_faithful hInv hCrash x.page) _
      _ = value x (committedLog (s.log.take k)) := by
        rw [pageLog, winners_entriesOn, replay_entriesOn]
        rfl
  · -- no table has a row there
    have hBlank : files'.db.record x = none := by
      have hNo : ¬ (files'.db x.tab).HasPage x.rid.pageNo :=
        fun h => hFirst h.1
      exact congrArg (fun p : Page => p.val x.rid.slotNo) (Table.image_of_not_hasPage hNo)
    rw [hBlank]
    by_contra hValue
    rcases exists_creates_of_value (Ne.symm hValue) with ⟨a, hA, e, hE, hLoc, _⟩
    have hMem := mem_of_mem_take (mem_of_mem_filter hA)
    exact hFirst (hInv.range.logged a hMem x ⟨e, hE, hLoc⟩).1

end Recovery

------------
-- Every Guarded Run
------------

theorem commitOrder_run
    {db₀ : Db}
    {acts : List Act}
    {s : Sys}
    (hEmpty : db₀.Empty)
    (hGuard : Guarded step HeapGuard (init db₀) acts)
    (hRun : run step (init db₀) acts = some s) :
    (WriteInv db₀ s ∧ Inv (inRange db₀) s.view) ∧ CommitOrder s.log := by
  refine invariant_of_guarded_run
    (fun s => (WriteInv db₀ s ∧ Inv (inRange db₀) s.view) ∧
      CommitOrder s.log) ?_ ⟨inv_init hEmpty, ?_⟩ hGuard hRun
  · rintro s a s' ⟨⟨hWrite, hInv⟩, hOrder⟩ hHeap hStep
    have hNext := step_refines hWrite hInv hHeap.orderly hStep
    exact ⟨⟨hNext.2, inv_steps hNext.1 hInv⟩, commitOrder_step hInv hOrder hHeap hStep⟩
  · simp [CommitOrder, init]

/- Recovery of the heap: after every guarded run and every
  crash that leaves sound free page lists, the tables hold
  exactly what the operations of the committed transactions
  leave, applied in log order. -/
theorem recover_committed
    {db₀ : Db}
    {acts : List Act}
    {s : Sys}
    {k : Nat}
    {files : Files}
    (hEmpty : db₀.Empty)
    (hGuard : StepSystem.Guarded step HeapGuard (init db₀) acts)
    (hRun : StepSystem.run step (init db₀) acts = some s)
    (hCrash : s.flushed ≤ k)
    (hDisk : files.db = s.disk)
    (hSound : files.Sound) :
    ∃ files', recover (s.log.take k) files = .ok files' ∧
      ∀ x, files'.db.record x =
        Log.value x (committedLog (s.log.take k)) := by
  rcases commitOrder_run hEmpty hGuard hRun with
    ⟨⟨hWrite, hInv⟩, hCommits⟩
  exact recover_crash hWrite hInv hCommits hCrash hDisk hSound

/- A committed insert whose page is written back, and an
  insert that is aborted. -/
def insertAndAbort : List Act :=
  [.begin, .begin, .startInsert 0 firstRow [1],
    .startInsert 1 secondRow [2], .next 0, .next 0, .next 0,
    .next 0, .next 1, .next 1, .next 1, .next 1, .checkpoint,
    .startCommit 0, .next 0, .next 0, .startAbort 1, .next 1,
    .flushPage firstRow.page, .next 1, .next 1]

/- The second slot of a page is filled after a checkpoint.  A
  later update is aborted, and another one is unfinished. -/
def insertBehindCheckpoint : List Act :=
  [.begin, .startInsert 0 firstRow [1], .next 0, .next 0,
    .next 0, .next 0, .startCommit 0, .next 0, .next 0,
    .checkpoint, .begin, .startInsert 1 secondRow [2], .next 1,
    .next 1, .next 1, .next 1, .startCommit 1, .next 1, .next 1,
    .begin, .startUpdate 2 firstRow [3], .next 2, .next 2,
    .next 2, .next 2, .next 2, .startAbort 2, .next 2, .next 2,
    .next 2, .next 2, .begin, .startUpdate 3 secondRow [4],
    .next 3, .flushLog]

/- The checkpoint has written the page as a free one. -/
def firstPageFree (tab : TabName) : Int :=
  if tab = firstRow.tab then firstRow.rid.pageNo else noPage

theorem recover_insertBehindCheckpoint :
    ∃ s, StepSystem.run step (init twoSlotTables)
        insertBehindCheckpoint = some s ∧
      (s.disk.files firstPageFree).Sound ∧
      ∃ files,
        recover (s.log.take s.flushed)
            (s.disk.files firstPageFree) = .ok files ∧
        files.db.record firstRow = some [1] ∧
        files.db.record secondRow = some [2] ∧
        ∀ x, files.db.record x =
          Log.value x (committedLog (s.log.take s.flushed)) := by
  rcases exists_of_any
    (o := run step (init twoSlotTables) insertBehindCheckpoint)
    (p := fun s => (s.disk firstRow.tab).HasPage 1 ∧
      (s.disk firstRow.tab).isFull 1 = false ∧
      Log.value firstRow (committedLog (s.log.take s.flushed)) =
        some [1] ∧
      Log.value secondRow
        (committedLog (s.log.take s.flushed)) = some [2])
    (by decide) with ⟨s, hRun, hPage, hRoom, hFirst, hSecond⟩
  have hGuard : Guarded step HeapGuard (init twoSlotTables)
      insertBehindCheckpoint := by
    decide
  have hHeader := crash_header twoSlotTables_empty
    (commitOrder_run twoSlotTables_empty hGuard hRun).1.1
  have hSound : (s.disk.files firstPageFree).Sound := by
    intro tab
    by_cases hTab : tab = firstRow.tab
    · subst hTab
      exact ⟨hHeader _, [1], ⟨⟨rfl, by decide, rfl⟩,
        List.nodup_singleton 1,
        List.forall_mem_singleton.mpr hPage⟩,
        List.forall_mem_singleton.mpr hRoom⟩
    · exact HeapFile.sound_of_noPage (hHeader tab) (if_neg hTab)
  rcases recover_committed twoSlotTables_empty hGuard hRun
    (Nat.le_refl _) rfl hSound with ⟨files, hRecover, hRows⟩
  exact ⟨s, hRun, hSound, files, hRecover,
    (hRows firstRow).trans hFirst,
    (hRows secondRow).trans hSecond, hRows⟩

/- In every orderly run, who changes a row after another
  transaction comes after its commit or finds it doomed, no
  page is ahead of the log on disk, and a row that is not
  being changed, nor was by a doomed transaction, holds the
  value of the log. -/
theorem heap_follows_log
    {db₀ : Db}
    {acts : List Act}
    {s : Sys}
    (hEmpty : db₀.Empty)
    (hGuard : StepSystem.Guarded step Orderly (init db₀) acts)
    (hRun : StepSystem.run step (init db₀) acts = some s) :
    (∀ r ∈ s.log, ∀ r' ∈ s.log, ∀ x, Log.Changes x r →
      Log.Changes x r' → r.lsn < r'.lsn → r.tid ≠ r'.tid →
        (s.phase r.tid).doomed = true ∨
          Wal.CommittedBefore s.log r.tid r'.lsn) ∧
      (∀ P, (s.disk.image P).lsn < s.flushed) ∧
      ∀ x, (∀ t, (s.phase t).doomed = true → ¬ Log.ChangedBy s.log t x) →
        (∀ t d st, s.phase t = .op d st → d.loc ≠ x) →
        s.db.record x = Log.value x s.log := by
  have hInv := (inv_run hEmpty hGuard hRun).2
  simp only [Phase.doomed_iff]
  refine ⟨hInv.changes, fun P => (hInv.disk.lsn P).2, ?_⟩
  intro x hClean hIdle
  refine (hInv.rows x hClean).settled ?_
  intro t d st hOp
  cases hPhase : s.phase t with
  | op d' st' =>
    simp only [view, hPhase, Phase.view, Wal.Status.op.injEq] at hOp
    exact hOp.1 ▸ hIdle t d' st' hPhase
  | _ => simp [view, hPhase, Phase.view] at hOp

theorem heap_follows_log_insertAndAbort :
    ∃ s, StepSystem.run step (init twoSlotTables)
        insertAndAbort = some s ∧
      (∀ r ∈ s.log, ∀ r' ∈ s.log, ∀ x, Log.Changes x r →
        Log.Changes x r' → r.lsn < r'.lsn → r.tid ≠ r'.tid →
          (s.phase r.tid).doomed = true ∨
            Wal.CommittedBefore s.log r.tid r'.lsn) ∧
      (∀ P, (s.disk.image P).lsn < s.flushed) ∧
      s.db.record firstRow = Log.value firstRow s.log ∧
      Log.value firstRow s.log = some [1] := by
  let s := (run step (init twoSlotTables) insertAndAbort).get
    (by decide)
  have hRun : run step (init twoSlotTables) insertAndAbort =
      some s :=
    (Option.some_get _).symm
  have hGuard : Guarded step Orderly (init twoSlotTables)
      insertAndAbort := by
    decide
  rcases heap_follows_log twoSlotTables_empty hGuard hRun with
    ⟨hChanges, hDisk, hRows⟩
  refine ⟨s, hRun, hChanges, hDisk, hRows firstRow ?_ ?_, by decide⟩
  · rintro t hDoomed ⟨r, hR, rfl, hFirst⟩
    have hCalm : ∀ r ∈ s.log, r.loc? = some firstRow →
        (s.phase r.tid).doomed = false := by
      decide
    cases hDoomed.symm.trans
      (hCalm r hR (loc?_eq_some.mpr hFirst))
  · intro t d st hOp
    have hEnded : ∀ u ∈ s.begun, s.phase u = .committed ∨
        (s.phase u).doomed = true := by
      decide
    have hWrite := (inv_run twoSlotTables_empty hGuard hRun).1
    by_cases hBegun : t ∈ s.begun
    · rcases hEnded t hBegun with h | h
      · cases hOp.symm.trans h
      · rw [hOp] at h
        cases h
    · cases hOp.symm.trans (hWrite.fresh t hBegun)

/- An insert is aborted, and a later transaction that gets the
  same slot commits. -/
def insertAfterAbort : List Act :=
  [.begin, .startInsert 0 firstRow [1], .next 0, .next 0,
    .next 0, .next 0, .startAbort 0, .next 0, .next 0, .next 0,
    .next 0, .begin, .startInsert 1 firstRow [2], .next 1,
    .next 1, .next 1, .next 1, .startCommit 1, .next 1, .next 1]

/- Undo of the aborted insert deletes the committed row, though
  every step of the run is orderly and the free page lists are
  those of new files. -/
theorem committed_insert_lost :
    StepSystem.Guarded step Orderly (init twoSlotTables)
        insertAfterAbort ∧
      ∃ s, StepSystem.run step (init twoSlotTables)
          insertAfterAbort = some s ∧
        ∃ files,
          recover (s.log.take s.flushed)
              (s.disk.files (fun _ => noPage)) = .ok files ∧
          files.db.record firstRow = none ∧
          Log.value firstRow
            (committedLog (s.log.take s.flushed)) =
              some [2] := by
  exact ⟨by decide, _, (Option.some_get (by decide)).symm,
    exists_ok_of_any (by decide)⟩

end Sys

end Rmdb
