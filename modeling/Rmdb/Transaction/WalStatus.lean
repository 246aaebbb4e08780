import Rmdb.Transaction.Wal

/-
  This file relates the status of each transaction and the row
  locks to the log, along every run of the write-ahead
  machine.

  Key definitions include:
    * `Wal.StatusOk`
    * `Wal.LockOk`
    * `Wal.Inv`

  Key theorems include:
    * `Wal.statusOk_step`
    * `Wal.lockOk_step`
-/

namespace Rmdb

open List Log

namespace Wal

------------
-- Statuses And The Log
------------

/- The log holds an abort or begin record of a transaction. -/
def HasAbort (log : List LogRecord) (t : TxnId) : Prop :=
  ∃ r ∈ log, (r.body = .begin ∨ r.body = .abort) ∧ r.tid = t

/- The log holds a given data record of a transaction. -/
def LoggedAt
    (log : List LogRecord)
    (t : TxnId)
    (d : DataRecord)
    (lsn : Int) :
    Prop :=
  ∃ r ∈ log, r.tid = t ∧ r.lsn = lsn ∧ r.body = .data d

/- What the stage of a change says about its record. -/
def StageOk
    (log : List LogRecord)
    (t : TxnId)
    (d : DataRecord) :
    Stage → Prop
| .placed => d.before = none
| .held => d.before = none
| .read => d.before.isSome
| .logged lsn => LoggedAt log t d lsn
| .stamped lsn => LoggedAt log t d lsn ∧ d.before.isSome
| .applied lsn =>
  LoggedAt log t d lsn ∧ d.before.isSome ∧ d.after.isSome

/- What the status of a transaction says about the log. -/
structure StatusOk
    (log : List LogRecord)
    (t : TxnId)
    (st : Status) :
    Prop where
  commit : HasCommit log t → st = .sealed ∨ st = .done
  abort : HasAbort log t → st = .doomed
  fresh : st = .fresh → ∀ x, ¬ Log.ChangedBy log t x
  committed : st = .sealed ∨ st = .done → ∀ x, Log.ChangedBy log t x → HasCommit log t
  stage : ∀ d stage, st = .op d stage → StageOk log t d stage

variable {d : DataRecord} {st : Status}

section Append

variable {log : List LogRecord} {t : TxnId} {r : LogRecord}

theorem hasAbort_concat : HasAbort (log ++ [r]) t ↔ HasAbort log t ∨
        ((r.body = .begin ∨ r.body = .abort) ∧ r.tid = t) :=
  exists_mem_concat

theorem LoggedAt.concat {lsn : Int}
    (hLogged : LoggedAt log t d lsn) : LoggedAt (log ++ [r]) t d lsn := by
  rcases hLogged with ⟨a, hMem, hRest⟩
  exact ⟨a, mem_append_left _ hMem, hRest⟩

theorem StageOk.concat {stage : Stage}
    (hStage : StageOk log t d stage) : StageOk (log ++ [r]) t d stage := by
  cases stage with
  | placed | held | read => exact hStage
  | logged lsn => exact LoggedAt.concat hStage
  | stamped lsn | applied lsn => exact ⟨hStage.1.concat, hStage.2⟩

/- A record of another transaction changes nothing. -/
theorem StatusOk.concat_other (hOk : StatusOk log t st)
    (hTid : r.tid ≠ t) : StatusOk (log ++ [r]) t st := by
  constructor
  · intro hCommit
    rw [hasCommit_concat] at hCommit
    rcases hCommit with hOld | hNew
    · exact hOk.commit hOld
    · exact absurd hNew.2 hTid
  · intro hAbort
    rw [hasAbort_concat] at hAbort
    rcases hAbort with hOld | hNew
    · exact hOk.abort hOld
    · exact absurd hNew.2 hTid
  · intro hFresh x hChanged
    rw [changedBy_concat] at hChanged
    rcases hChanged with hOld | hNew
    · exact hOk.fresh hFresh x hOld
    · exact hTid hNew.1
  · intro hSealed x hChanged
    rw [changedBy_concat] at hChanged
    rw [hasCommit_concat]
    rcases hChanged with hOld | hNew
    · exact Or.inl (hOk.committed hSealed x hOld)
    · exact absurd hNew.1 hTid
  · intro d stage hSt
    exact (hOk.stage d stage hSt).concat

/- A checkpoint record says nothing about any transaction. -/
theorem StatusOk.concat_checkpoint (hOk : StatusOk log t st)
    (hBody : r.body = .checkpoint) : StatusOk (log ++ [r]) t st := by
  have hNoChange : ∀ x, ¬ Changes x r := by
    rintro x ⟨d, hData, _⟩
    rw [hBody] at hData
    cases hData
  constructor
  · intro hCommit
    rw [hasCommit_concat, hBody] at hCommit
    simp only [reduceCtorEq, false_and, or_false] at hCommit
    exact hOk.commit hCommit
  · intro hAbort
    rw [hasAbort_concat, hBody] at hAbort
    simp only [reduceCtorEq, or_self, false_and, or_false] at hAbort
    exact hOk.abort hAbort
  · intro hFresh x hChanged
    rw [changedBy_concat] at hChanged
    rcases hChanged with hOld | hNew
    · exact hOk.fresh hFresh x hOld
    · exact hNoChange x hNew.2
  · intro hSealed x hChanged
    rw [changedBy_concat] at hChanged
    rw [hasCommit_concat]
    rcases hChanged with hOld | hNew
    · exact Or.inl (hOk.committed hSealed x hOld)
    · exact absurd hNew.2 (hNoChange x)
  · intro d stage hSt
    exact (hOk.stage d stage hSt).concat

end Append

/- A live transaction has neither ended nor been aborted. -/
def Status.Running : Status → Prop
| .idle => True
| .op _ _ => True
| _ => False

variable {log : List LogRecord} {t : TxnId}

theorem StatusOk.running (hOk : StatusOk log t st)
    (hRunning : st.Running) : ¬ HasCommit log t ∧ ¬ HasAbort log t := by
  constructor
  · intro hCommit
    rcases hOk.commit hCommit with rfl | rfl
    · exact hRunning
    · exact hRunning
  · intro hAbort
    rw [hOk.abort hAbort] at hRunning
    exact hRunning

/- A transaction without commit and abort records may go to
  any running or doomed status whose stage is right. -/
theorem statusOk_of_running
    (hNone : ¬ HasCommit log t ∧ ¬ HasAbort log t)
    (hSt : st.Running ∨ st = .doomed)
    (hStage : ∀ d stage, st = .op d stage → StageOk log t d stage) :
    StatusOk log t st := by
  refine ⟨fun h => absurd h hNone.1, fun h => absurd h hNone.2, ?_, ?_, hStage⟩
  · rintro rfl
    rcases hSt with h | h <;> cases h
  · rintro (rfl | rfl) <;> rcases hSt with h | h <;> cases h

/- Every transaction's status agrees with the log. -/
def StatusInv (c : State) : Prop :=
  ∀ t, StatusOk c.log t (c.status t)

variable {c c' : State}

/- Only one transaction changes its status. -/
theorem StatusInv.setStatus
    (hInv : StatusInv c)
    (hLog : c'.log = c.log)
    (hStatus : c'.status = Function.update c.status t st)
    (hOk : StatusOk c.log t st) :
    StatusInv c' := by
  intro t'
  rw [hLog, hStatus]
  by_cases hT : t' = t
  · subst hT
    simpa using hOk
  · rw [Function.update_of_ne hT]
    exact hInv t'

/- A running transaction works on or is rejected. -/
theorem StatusInv.works
    (hInv : StatusInv c)
    (hOld : (c.status t).Running)
    (hLog : c'.log = c.log)
    (hStatus : c'.status = Function.update c.status t st)
    (hSt : st.Running ∨ st = .doomed)
    (hStage : ∀ d stage, st = .op d stage → StageOk c.log t d stage) :
    StatusInv c' :=
  hInv.setStatus hLog hStatus (statusOk_of_running ((hInv t).running hOld) hSt hStage)

variable {r : LogRecord}

/- One transaction logs a record and changes its status. -/
theorem StatusInv.append
    (hInv : StatusInv c)
    (hTid : r.tid = t)
    (hLog : c'.log = c.log ++ [r])
    (hStatus : c'.status = Function.update c.status t st)
    (hOk : StatusOk (c.log ++ [r]) t st) :
    StatusInv c' := by
  intro t'
  rw [hLog, hStatus]
  by_cases hT : t' = t
  · subst hT
    simpa using hOk
  · rw [Function.update_of_ne hT]
    exact (hInv t').concat_other (by rw [hTid]; exact Ne.symm hT)

/- A record with no word about the end of its transaction. -/
theorem running_concat_data (hNone : ¬ HasCommit log t ∧ ¬ HasAbort log t)
    (hBody : r.body = .data d) :
    ¬ HasCommit (log ++ [r]) t ∧ ¬ HasAbort (log ++ [r]) t := by
  rw [hasCommit_concat, hasAbort_concat, hBody]
  simpa using hNone

/- One step of the machine keeps every status in agreement
  with the log. -/
theorem statusInv_step
    {inRange : Range}
    (hStep : Step inRange c c')
    (hInv : StatusInv c) :
    StatusInv c' := by
  cases hStep with
  | begin t hSt =>
    have hOk := hInv t
    rw [hSt] at hOk
    refine hInv.setStatus rfl rfl (statusOk_of_running ⟨?_, ?_⟩ (Or.inl trivial) ?_)
    · intro h
      rcases hOk.commit h with h | h <;> cases h
    · intro h
      cases hOk.abort h
    · intro d stage h
      cases h
  | place t x rec hSt _ _ | acquire t x rec hSt _ =>
    refine hInv.works (by rw [hSt]; trivial) rfl rfl (Or.inl trivial) ?_
    rintro d stage ⟨⟩
    exact rfl
  | unplace t x rec st v hSt _ _ | spoil t d st lsn v hSt _ | fail t hSt =>
    refine hInv.works (by rw [hSt]; trivial) rfl rfl (Or.inr rfl) ?_
    rintro d stage ⟨⟩
  | lockRow t x _ _ => exact hInv
  | read t d hSt _ hSome _ _ =>
    refine hInv.works (by rw [hSt]; trivial) rfl rfl (Or.inl trivial) ?_
    rintro d stage ⟨⟩
    exact hSome
  | log t d st prevLsn hSt _ _ =>
    have hRun := (hInv t).running (by rw [hSt]; trivial)
    refine hInv.append rfl rfl rfl (statusOk_of_running (running_concat_data hRun rfl)
        (Or.inl trivial) ?_)
    rintro d stage ⟨⟩
    exact ⟨_, by simp, rfl, rfl, rfl⟩
  | stamp t d lsn hSt =>
    have hStage := (hInv t).stage _ _ hSt
    refine hInv.works (by rw [hSt]; trivial) rfl rfl ?_ ?_
    · split <;> exact Or.inl trivial
    · intro d' stage h
      split at h
      · obtain ⟨rfl, rfl⟩ := Status.op.inj h
        exact ⟨hStage, by assumption⟩
      · cases h
  | apply t d lsn hSt =>
    have hStage := (hInv t).stage _ _ hSt
    refine hInv.works (by rw [hSt]; trivial) rfl rfl ?_ ?_
    · split <;> exact Or.inl trivial
    · intro d' stage h
      split at h
      · obtain ⟨rfl, rfl⟩ := Status.op.inj h
        exact ⟨hStage.1, hStage.2, by assumption⟩
      · cases h
  | finish t d lsn hSt =>
    refine hInv.works (by rw [hSt]; trivial) rfl rfl (Or.inl trivial) ?_
    rintro d stage ⟨⟩
  | rollback t x v owner _ _ _ => exact hInv
  | release t st hSt =>
    refine hInv.setStatus rfl rfl ?_
    rcases hSt with ⟨hOld, rfl⟩ | ⟨hOld, rfl⟩
    · rw [← hOld]
      exact hInv t
    · have hOk := hInv t
      rw [hOld] at hOk
      refine ⟨fun _ => Or.inr rfl, ?_, ?_, ?_, ?_⟩
      · intro h
        cases hOk.abort h
      · intro h
        cases h
      · exact fun _ => hOk.committed (Or.inl rfl)
      · intro d stage h
        cases h
  | commit t prevLsn hSt =>
    have hRun := (hInv t).running (by rw [hSt]; trivial)
    refine hInv.append rfl rfl rfl ⟨fun _ => Or.inl rfl, ?_, ?_, ?_, ?_⟩
    · rw [hasAbort_concat]
      intro h
      simp only [reduceCtorEq, or_self, false_and, or_false] at h
      exact absurd h hRun.2
    · intro h
      cases h
    · intro _ x _
      rw [hasCommit_concat]
      exact Or.inr ⟨rfl, rfl⟩
    · intro d stage h
      cases h
  | quiet t hSt hNone =>
    have hRun := (hInv t).running (by rw [hSt]; trivial)
    refine hInv.setStatus rfl rfl ⟨fun _ => Or.inl rfl, fun h => absurd h hRun.2, ?_, ?_, ?_⟩
    · intro h
      cases h
    · intro _ x h
      exact absurd h (hNone x)
    · intro d stage h
      cases h
  | note t prevLsn body hBody =>
    intro t'
    rcases hBody with ⟨hSt, rfl⟩ | rfl
    · by_cases hT : t' = t
      · subst hT
        have hOk := hInv t'
        refine ⟨?_, fun _ => hSt, ?_, ?_, ?_⟩
        · intro h
          simp only [State.append, hasCommit_concat, reduceCtorEq, false_and, or_false] at h
          exact hOk.commit h
        · intro h
          cases hSt.symm.trans h
        · rintro (h | h)
          · cases hSt.symm.trans h
          · cases hSt.symm.trans h
        · intro d stage h
          cases hSt.symm.trans h
      · exact (hInv t').concat_other (Ne.symm hT)
    · exact (hInv t').concat_checkpoint rfl
  | flush | writeBack | skip => exact hInv

------------
-- Row Locks
------------

/- A transaction that has not dropped its locks holds the lock
  of every row it has logged, and of the row it works on once
  it has asked for it. -/
structure LockOk
    (log : List LogRecord)
    (locks : Loc → Option TxnId)
    (t : TxnId)
    (st : Status) :
    Prop where
  logged : st.Live → ∀ x, Log.ChangedBy log t x → locks x = some t
  stage : ∀ d stage, st = .op d stage → stage ≠ .placed → locks d.loc = some t

def LockInv (c : State) : Prop :=
  ∀ t, LockOk c.log c.locks t (c.status t)

/- No transaction but one may have lost a lock. -/
def LockFrame (t : TxnId) (locks locks' : Loc → Option TxnId) : Prop :=
  ∀ x t', t' ≠ t → locks x = some t' → locks' x = some t'

theorem LockFrame.refl (t : TxnId)
    (locks : Loc → Option TxnId) : LockFrame t locks locks := fun _ _ _ h => h

/- A lock is granted only where no other one holds it. -/
theorem LockFrame.grant
    {x : Loc}
    (hFree : c.lockFree t x)
    (owner : Option TxnId) :
    LockFrame t c.locks (Function.update c.locks x owner) := by
  intro y t' hT hLock
  by_cases hY : y = x
  · subst hY
    rcases hFree with h | h
    · rw [h] at hLock
      cases hLock
    · rw [h] at hLock
      exact absurd (Option.some.inj hLock).symm hT
  · rw [Function.update_of_ne hY]
    exact hLock

theorem LockFrame.drop
    (t : TxnId)
    (locks : Loc → Option TxnId) :
    LockFrame t locks (fun x =>
      if locks x = some t then none else locks x) := by
  intro x t' hT hLock
  simp [hLock, hT]

/- Records of other transactions and locks kept elsewhere. -/
theorem LockOk.frame
    {locks locks' : Loc → Option TxnId}
    {t' : TxnId}
    {records : List LogRecord}
    (hOk : LockOk log locks t' st)
    (hT : t' ≠ t)
    (hFrame : LockFrame t locks locks')
    (hRecords : ∀ r ∈ records, r.tid = t ∨ ∀ x, ¬ Changes x r) :
    LockOk (log ++ records) locks' t' st := by
  constructor
  · intro hLive x hChanged
    apply hFrame x t' hT
    apply hOk.logged hLive x
    rcases hChanged with ⟨r, hMem, hTid, hChanges⟩
    rcases mem_append.mp hMem with hOld | hNew
    · exact ⟨r, hOld, hTid, hChanges⟩
    · rcases hRecords r hNew with h | h
      · exact absurd (hTid.symm.trans h) hT
      · exact absurd hChanges (h x)
  · intro d stage hSt hStage
    exact hFrame d.loc t' hT (hOk.stage d stage hSt hStage)

/- One transaction moves; the others keep their locks. -/
theorem LockInv.update
    (hInv : LockInv c)
    (st : Status)
    (records : List LogRecord)
    (hLog : c'.log = c.log ++ records)
    (hStatus : c'.status = Function.update c.status t st)
    (hFrame : LockFrame t c.locks c'.locks)
    (hRecords : ∀ r ∈ records, r.tid = t ∨ ∀ x, ¬ Changes x r)
    (hOk : LockOk (c.log ++ records) c'.locks t st) :
    LockInv c' := by
  intro t'
  rw [hLog, hStatus]
  by_cases hT : t' = t
  · subst hT
    simpa using hOk
  · rw [Function.update_of_ne hT]
    exact (hInv t').frame hT hFrame hRecords

/- A transaction that keeps its locks may change its status. -/
theorem LockInv.keep
    (hInv : LockInv c)
    (hLog : c'.log = c.log)
    (hStatus : c'.status = Function.update c.status t st)
    (hLocks : c'.locks = c.locks)
    (hLive : st.Live → (c.status t).Live)
    (hStage : ∀ d stage, st = .op d stage → stage ≠ .placed →
      c.locks d.loc = some t) :
    LockInv c' := by
  refine hInv.update st [] (by simpa using hLog) hStatus
    (by rw [hLocks]; exact LockFrame.refl t c.locks) (by simp) ?_
  rw [append_nil, hLocks]
  exact ⟨fun h => (hInv t).logged (hLive h), hStage⟩

/- A transaction gets one more lock. -/
theorem LockInv.grant
    {x : Loc}
    (hInv : LockInv c)
    (st : Status)
    (hLog : c'.log = c.log)
    (hStatus : c'.status = Function.update c.status t st)
    (hLocks : c'.locks = Function.update c.locks x (some t))
    (hFree : c.lockFree t x)
    (hLive : (c.status t).Live)
    (hStage : ∀ d stage, st = .op d stage → stage ≠ .placed → d.loc = x) :
    LockInv c' := by
  refine hInv.update st [] (by simpa using hLog) hStatus
    (by rw [hLocks]; exact LockFrame.grant hFree _) (by simp) ?_
  rw [append_nil, hLocks]
  constructor
  · intro _ y hChanged
    by_cases hY : y = x
    · subst hY
      simp
    · rw [Function.update_of_ne hY]
      exact (hInv t).logged hLive y hChanged
  · intro d stage hSt hNe
    rw [hStage d stage hSt hNe]
    simp

/- A transaction logs a record and keeps its locks. -/
theorem LockInv.append
    (hInv : LockInv c)
    (hLog : c'.log = c.log ++ [r])
    (hTid : r.tid = t)
    (hStatus : c'.status = Function.update c.status t st)
    (hLocks : c'.locks = c.locks)
    (hLive : (c.status t).Live)
    (hChanges : ∀ x, Changes x r → c.locks x = some t)
    (hStage : ∀ d stage, st = .op d stage → stage ≠ .placed →
      c.locks d.loc = some t) :
    LockInv c' := by
  refine hInv.update st [r] hLog hStatus (by rw [hLocks]; exact LockFrame.refl t c.locks)
    (by simp [hTid]) ?_
  rw [hLocks]
  refine ⟨?_, hStage⟩
  intro _ x hChanged
  rw [changedBy_concat] at hChanged
  rcases hChanged with hOld | hNew
  · exact (hInv t).logged hLive x hOld
  · exact hChanges x hNew.2

/- One step of the machine keeps the lock discipline. -/
theorem lockInv_step
    {inRange : Range}
    (hStep : Step inRange c c')
    (hStatus : StatusInv c)
    (hInv : LockInv c) :
    LockInv c' := by
  cases hStep with
  | begin t hSt =>
    refine hInv.update .idle [] (by simp; rfl) rfl (LockFrame.refl t _) (by simp) ?_
    rw [append_nil]
    refine ⟨?_, by rintro d stage ⟨⟩⟩
    intro _ x hChanged
    exact absurd hChanged ((hStatus t).fresh hSt x)
  | place t x rec hSt _ _ =>
    refine hInv.keep rfl rfl rfl (fun _ => by rw [hSt]; trivial) ?_
    rintro d stage ⟨⟩ hNe
    exact absurd rfl hNe
  | acquire t x rec hSt hFree | read t d hSt hFree _ _ _ =>
    refine hInv.grant _ rfl rfl rfl hFree (by rw [hSt]; trivial) ?_
    rintro d stage ⟨⟩ _
    rfl
  | unplace t x rec st v hSt _ _ =>
    exact hInv.keep rfl rfl rfl (fun h => h.elim) (by rintro d stage ⟨⟩)
  | lockRow t x hSt hFree =>
    refine hInv.grant (c.status t) rfl ?_ rfl hFree (by rw [hSt]; trivial) ?_
    · simp [State.setLock]
    · intro d stage h
      rw [hSt] at h
      cases h
  | log t d st prevLsn hSt hHeld _ =>
    have hLock : c.locks d.loc = some t := (hInv t).stage d st hSt (by
        rcases hHeld with rfl | rfl <;> simp)
    refine hInv.append rfl rfl rfl rfl (by rw [hSt]; trivial) ?_ ?_
    · rintro x ⟨d', hBody, rfl⟩
      obtain rfl : d = d' := by simpa using hBody
      exact hLock
    · rintro d stage ⟨⟩ _
      exact hLock
  | stamp t d lsn hSt | apply t d lsn hSt =>
    have hLock : c.locks d.loc = some t := (hInv t).stage d _ hSt (by simp)
    refine hInv.keep rfl rfl rfl (fun _ => by rw [hSt]; trivial) ?_
    intro d' stage h _
    split at h
    · obtain ⟨rfl, rfl⟩ := Status.op.inj h
      exact hLock
    · cases h
  | finish t d lsn hSt | quiet t hSt _ =>
    exact hInv.keep rfl rfl rfl (fun _ => by rw [hSt]; trivial) (by rintro d stage ⟨⟩)
  | spoil t d st lsn v hSt _ | fail t hSt =>
    exact hInv.keep rfl rfl rfl (fun h => h.elim) (by rintro d stage ⟨⟩)
  | rollback t x v owner hSt _ hOwner =>
    have hFrame : LockFrame t c.locks (Function.update c.locks x owner) := by
      rcases hOwner with rfl | ⟨hOwn, _⟩
      · rw [Function.update_eq_self]
        exact LockFrame.refl t c.locks
      · exact LockFrame.grant (Or.inr hOwn) owner
    refine hInv.update (c.status t) [] (by simp; rfl) (by simp [State.setContent, State.setLock])
      hFrame (by simp) ?_
    rw [append_nil, hSt]
    exact ⟨fun h => h.elim, by rintro d stage ⟨⟩⟩
  | release t st hSt =>
    refine hInv.update st [] (by simp; rfl) rfl (LockFrame.drop t c.locks) (by simp) ?_
    rcases hSt with ⟨_, rfl⟩ | ⟨_, rfl⟩
    · exact ⟨fun h => h.elim, by rintro d stage ⟨⟩⟩
    · exact ⟨fun h => h.elim, by rintro d stage ⟨⟩⟩
  | commit t prevLsn hSt =>
    refine hInv.append rfl rfl rfl rfl (by rw [hSt]; trivial) ?_ (by rintro d stage ⟨⟩)
    rintro x ⟨d, hBody, _⟩
    cases hBody
  | note t prevLsn body hBody =>
    have hNo : ∀ x, ¬ Changes x ⟨c.log.length, t, prevLsn, body⟩ := by
      rintro x ⟨d, hData, _⟩
      rcases hBody with ⟨_, rfl⟩ | rfl
      · cases hData
      · cases hData
    intro t'
    refine ⟨?_, (hInv t').stage⟩
    intro hLive x hChanged
    simp only [State.append, changedBy_concat] at hChanged
    rcases hChanged with hOld | hNew
    · exact (hInv t').logged hLive x hOld
    · exact absurd hNew.2 (hNo x)
  | flush n _ _ => exact hInv
  | writeBack disk _ => exact hInv
  | skip => exact hInv

end Wal

end Rmdb
