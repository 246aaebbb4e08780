import Rmdb.Transaction.WalStatus

/-
  This file shows what the write-ahead machine keeps true of
  the heap: outside the rows that a doomed transaction has
  logged, the heap holds what the log says, up to the change
  that is under way.

  Key definitions include:
    * `Wal.RowOk`
    * `Wal.OrderInv`
    * `Wal.BeforeInv`

  Key theorems include:
    * `Wal.rowInv_step`
    * `Wal.orderInv_step`
    * `Wal.beforeInv_step`
-/

namespace Rmdb

open Function List Log

namespace Wal

------------
-- What Every Step Does To Statuses And The Log
------------

variable {inRange : Range} {c c' : State}

/- A doomed transaction stays doomed. -/
theorem doomed_step
    {u : TxnId}
    (hStep : Step inRange c c')
    (hDoomed : c.status u = .doomed) :
    c'.status u = .doomed := by
  have hOther : ∀ (t : TxnId) (st : Status), c.status t ≠ .doomed ∨ st = .doomed →
        update c.status t st u = .doomed := by
    intro t st hT
    by_cases hU : u = t
    · subst hU
      rcases hT with h | h
      · exact absurd hDoomed h
      · simp [h]
    · rw [update_of_ne hU]
      exact hDoomed
  cases hStep with
  | begin t hSt | place t x rec hSt | acquire t x rec hSt | read t d hSt
  | log t d st prevLsn hSt | stamp t d lsn hSt | apply t d lsn hSt | finish t d lsn hSt
  | commit t prevLsn hSt | quiet t hSt => exact hOther t _ (Or.inl (by simp [hSt]))
  | unplace t x rec st v hSt | spoil t d st lsn v hSt | fail t hSt => exact hOther t _ (Or.inr rfl)
  | lockRow t x | rollback t x v owner | note t prevLsn body | flush n | writeBack disk | skip =>
    exact hDoomed
  | release t st hSt =>
    rcases hSt with ⟨_, rfl⟩ | ⟨hOld, _⟩
    · exact hOther t _ (Or.inr rfl)
    · exact hOther t _ (Or.inl (by simp [hOld]))

/- The log grows at its end: by a data record of the change at
  hand, or by records that change no row. -/
inductive Grows (c c' : State) : Prop where
  | same (hLog : c'.log = c.log)
  | quiet (r : LogRecord) (hLog : c'.log = c.log ++ [r]) (hLsn : r.lsn = c.log.length)
      (hNo : ∀ x, ¬ Log.Changes x r)
  | data (t : TxnId) (d : DataRecord) (st : Stage) (r : LogRecord) (hLog : c'.log = c.log ++ [r])
      (hLsn : r.lsn = c.log.length) (hTid : r.tid = t) (hBody : r.body = .data d)
      (hSt : c.status t = .op d st) (hHeld : st = .held ∨ st = .read)

theorem grows_step (hStep : Step inRange c c') : Grows c c' := by
  cases hStep with
  | log t d st prevLsn hSt hHeld _ => exact .data t d st _ rfl rfl rfl rfl hSt hHeld
  | commit t prevLsn hSt =>
    refine .quiet _ rfl rfl ?_
    rintro x ⟨d, hBody, _⟩
    cases hBody
  | note t prevLsn body hBody =>
    refine .quiet _ rfl rfl ?_
    rintro x ⟨d, hData, _⟩
    rcases hBody with ⟨_, rfl⟩ | rfl
    · cases hData
    · cases hData
  | _ => exact .same rfl

/- Old records stay in the log. -/
theorem mem_log_step
    (hGrows : Grows c c')
    {r : LogRecord}
    (hMem : r ∈ c.log) :
    r ∈ c'.log := by
  cases hGrows with
  | same hLog =>
    rw [hLog]
    exact hMem
  | quiet a hLog | data t d st a hLog =>
    rw [hLog]
    exact mem_append_left _ hMem

variable {t : TxnId} {x : Loc}

theorem changedBy_step (hGrows : Grows c c')
    (hChanged : ChangedBy c.log t x) : ChangedBy c'.log t x := by
  rcases hChanged with ⟨r, hMem, hRest⟩
  exact ⟨r, mem_log_step hGrows hMem, hRest⟩

/- A row that is untainted after a step was so before it. -/
theorem untainted_of_step (hStep : Step inRange c c')
    (hClean : Untainted c' x) : Untainted c x := by
  intro t hDoomed hChanged
  exact hClean t (doomed_step hStep hDoomed) (changedBy_step (grows_step hStep) hChanged)

theorem inOrder_step
    (hGrows : Grows c c')
    (hOrder : Log.InOrder c.log) :
    Log.InOrder c'.log := by
  cases hGrows with
  | same hLog =>
    rw [hLog]
    exact hOrder
  | quiet r hLog hLsn | data t d st r hLog hLsn =>
    rw [hLog]
    exact hOrder.concat hLsn

------------
-- The Heap And The Log
------------

/- What the heap holds in a row: the value of the log, or what
  the one change under way has made of it. -/
structure RowOk (c : State) (x : Loc) : Prop where
  unique : ∀ t t' d d' st st', c.status t = .op d st → d.loc = x →
      c.status t' = .op d' st' → d'.loc = x → t = t'
  pending : ∀ t d st, c.status t = .op d st → d.loc = x → c.content x = heapValue d st ∧
      (st.lsn? = none → d.before = Log.value x c.log) ∧
      (st.lsn?.isSome → Log.value x c.log = d.after)
  settled : (∀ t d st, c.status t = .op d st → d.loc ≠ x) → c.content x = Log.value x c.log

def RowInv (c : State) : Prop :=
  ∀ x, Untainted c x → RowOk c x

/- A row that a step does not touch. -/
theorem RowOk.frame
    (hRow : RowOk c x)
    (hContent : c'.content x = c.content x)
    (hValue : value x c'.log = value x c.log)
    (hStatus : ∀ t d st, d.loc = x →
        (c'.status t = .op d st ↔ c.status t = .op d st)) :
    RowOk c' x := by
  constructor
  · intro t t' d d' st st' hSt hLoc hSt' hLoc'
    exact hRow.unique t t' d d' st st' ((hStatus t d st hLoc).mp hSt) hLoc
      ((hStatus t' d' st' hLoc').mp hSt') hLoc'
  · intro t d st hSt hLoc
    rw [hContent, hValue]
    exact hRow.pending t d st ((hStatus t d st hLoc).mp hSt) hLoc
  · intro hNone
    rw [hContent, hValue]
    apply hRow.settled
    intro t d st hSt hLoc
    exact hNone t d st ((hStatus t d st hLoc).mpr hSt) hLoc

variable {d : DataRecord} {st : Stage}

/- The row of the only change under way on it. -/
theorem RowOk.only
    (hOthers : ∀ u e se, u ≠ t → c.status u = .op e se → e.loc ≠ d.loc)
    (hStatus : c'.status = update c.status t (.op d st))
    (hContent : c'.content d.loc = heapValue d st)
    (hUnlogged : st.lsn? = none → d.before = value d.loc c'.log)
    (hLogged : st.lsn?.isSome → value d.loc c'.log = d.after) :
    RowOk c' d.loc := by
  have hOnly : ∀ u e se, c'.status u = .op e se → e.loc = d.loc → u = t := by
    intro u e se hU hE
    by_contra hNe
    rw [hStatus, update_of_ne hNe] at hU
    exact hOthers u e se hNe hU hE
  have hSelf : c'.status t = .op d st := by
    rw [hStatus]
    simp
  constructor
  · intro u u' e e' se se' hU hE hU' hE'
    rw [hOnly u e se hU hE, hOnly u' e' se' hU' hE']
  · intro u e se hU hE
    obtain rfl := hOnly u e se hU hE
    rw [hSelf] at hU
    obtain ⟨rfl, rfl⟩ := Status.op.inj hU
    exact ⟨hContent, hUnlogged, hLogged⟩
  · intro hNone
    exact absurd rfl (hNone t d st hSelf)

/- The row of a change under way, after a step of it. -/
theorem RowOk.advance
    {st' : Stage}
    (hRow : RowOk c d.loc)
    (hSt : c.status t = .op d st)
    (hStatus : c'.status = update c.status t (.op d st'))
    (hContent : c'.content d.loc = heapValue d st')
    (hUnlogged : st'.lsn? = none → d.before = value d.loc c'.log)
    (hLogged : st'.lsn?.isSome → value d.loc c'.log = d.after) :
    RowOk c' d.loc :=
  RowOk.only (fun u e se hNe hU hE => hNe (hRow.unique u t e d se st hU hE hSt rfl))
    hStatus hContent hUnlogged hLogged

/- The row of a change that a step brings to its end. -/
theorem RowOk.settle
    {st' : Status}
    (hRow : RowOk c d.loc)
    (hSt : c.status t = .op d st)
    (hStatus : c'.status = update c.status t st')
    (hEnd : ∀ e se, st' ≠ .op e se)
    (hContent : c'.content d.loc = value d.loc c'.log) :
    RowOk c' d.loc := by
  have hNone : ∀ u e se, c'.status u = .op e se → e.loc ≠ d.loc := by
    intro u e se hU hE
    rw [hStatus] at hU
    by_cases hT : u = t
    · subst hT
      rw [update_self] at hU
      exact hEnd e se hU
    · rw [update_of_ne hT] at hU
      exact hT (hRow.unique u t e d se st hU hE hSt rfl)
  refine ⟨?_, ?_, fun _ => hContent⟩
  · intro u u' e e' se se' hU hE
    exact absurd hE (hNone u e se hU)
  · intro u e se hU hE
    exact absurd hE (hNone u e se hU)

/- A change begins on a row that no change is under way on. -/
theorem RowOk.start
    (hNone : ∀ u e se, c.status u = .op e se → e.loc ≠ d.loc)
    (hStatus : c'.status = update c.status t (.op d st))
    (hStage : st.lsn? = none)
    (hContent : c'.content d.loc = heapValue d st)
    (hBefore : d.before = value d.loc c'.log) :
    RowOk c' d.loc :=
  RowOk.only (fun u e se _ => hNone u e se) hStatus hContent (fun _ => hBefore)
    (fun hSome => by simp [hStage] at hSome)

variable {y : Loc}

/- Changes of one status are seen on its own rows only. -/
theorem op_iff_of_update
    {st : Status}
    (hStatus : c'.status = update c.status t st)
    (hOld : ∀ d s, c.status t = .op d s → d.loc ≠ y)
    (hNew : ∀ d s, st = .op d s → d.loc ≠ y) :
    ∀ u d s, d.loc = y → (c'.status u = .op d s ↔ c.status u = .op d s) := by
  intro u d s hLoc
  rw [hStatus]
  by_cases hU : u = t
  · subst hU
    rw [update_self]
    constructor
    · intro h
      exact absurd hLoc (hNew d s h)
    · intro h
      exact absurd hLoc (hOld d s h)
  · rw [update_of_ne hU]

/- Statuses outside of any change. -/
theorem not_op_of_eq
    {st st' : Status}
    (hEq : st = st')
    (hNot : ∀ d s, st' ≠ .op d s) :
    ∀ d s, st = .op d s → d.loc ≠ y :=
  fun d s h => absurd (hEq.symm.trans h) (hNot d s)

/- The status of a change is seen on the row of the change. -/
theorem loc_of_eq
    {st : Status}
    {s : Stage}
    (hEq : st = .op d s)
    (hNe : d.loc ≠ y) :
    ∀ e s', st = .op e s' → e.loc ≠ y := by
  intro e s' h
  rw [hEq] at h
  obtain ⟨rfl, rfl⟩ := Status.op.inj h
  exact hNe

variable {log : List LogRecord}

theorem value_concat_quiet {r : LogRecord}
    (hNo : ¬ Changes x r) : value x (log ++ [r]) = value x log := by
  rw [value_concat, applyTo_of_not_changes hNo]

theorem value_append_data
    (c : State)
    (t : TxnId)
    (prevLsn : Int)
    (d : DataRecord) :
    value d.loc (c.append t prevLsn (.data d)).log =
      d.after := by
  simp only [State.append]
  rw [value_concat]
  exact applyTo_of_changes rfl rfl _

/- The value of another row does not see an appended record. -/
theorem value_append_other
    (c : State)
    (t : TxnId)
    (prevLsn : Int)
    {body : LogBody}
    (hOther : ∀ d, body = .data d → d.loc ≠ y) :
    value y (c.append t prevLsn body).log = value y c.log := by
  apply value_concat_quiet
  rintro ⟨d, hBody, hLoc⟩
  exact hOther d hBody hLoc

theorem heapValue_unlogged
    {lsn : Int}
    (hStage : StageOk log t d st)
    (hHeld : st = .held ∨ st = .read) :
    heapValue d (.logged lsn) = heapValue d st := by
  rcases hHeld with rfl | rfl
  · cases d with
    | insert x rec => rfl
    | delete x rec | update x old new => simp [StageOk, DataRecord.before] at hStage
  · cases d <;> rfl

theorem heapValue_isSome (hStage : StageOk log t d st) :
    (heapValue d st).isSome := by
  cases d with
  | insert x rec => rfl
  | delete x rec =>
    cases st with
    | applied lsn => exact absurd hStage.2.2 (by simp [DataRecord.after])
    | _ => rfl
  | update x old new => cases st <;> rfl

/- A step whose transaction is outside of any change before
  and after, and which keeps the row and its value. -/
theorem RowOk.idle
    {st : Status}
    (hRow : RowOk c y)
    (hContent : c'.content y = c.content y)
    (hValue : value y c'.log = value y c.log)
    (hStatus : c'.status = update c.status t st)
    (hOld : ∀ d s, c.status t ≠ .op d s)
    (hNew : ∀ d s, st ≠ .op d s) :
    RowOk c' y := hRow.frame hContent hValue
    (op_iff_of_update hStatus (fun d s h => absurd h (hOld d s)) (fun d s h => absurd h (hNew d s)))

/- Who reads a row finds no change of it under way: a placed
  insert is ruled out, and any other change holds the lock. -/
theorem no_change_of_read
    (hStatus : StatusInv c)
    (hLocks : LockInv c)
    (hSt : c.status t = .idle)
    (hFree : c.lockFree t x)
    (hPlaced : ∀ u rec, c.status u ≠ .op (.insert x rec) .placed) :
    ∀ u e se, c.status u = .op e se → e.loc ≠ x := by
  intro u e se hU hLoc
  by_cases hStage : se = .placed
  · subst hStage
    have hBefore : e.before = none := (hStatus u).stage e _ hU
    cases e with
    | insert y rec =>
      obtain rfl : y = x := hLoc
      exact hPlaced u rec hU
    | delete y rec | update y old new => simp [DataRecord.before] at hBefore
  · have hLock := (hLocks u).stage e se hU hStage
    rw [hLoc] at hLock
    have hUT : u = t := by
      rcases hFree with h | h
      · rw [h] at hLock
        cases hLock
      · rw [h] at hLock
        exact (Option.some.inj hLock).symm
    subst hUT
    rw [hSt] at hU
    cases hU

/- One step of the machine keeps every untainted row right. -/
theorem rowInv_step
    (hStep : Step inRange c c')
    (hStatus : StatusInv c)
    (hLocks : LockInv c)
    (hInv : RowInv c) :
    RowInv c' := by
  intro y hClean
  have hCleanOld := untainted_of_step hStep hClean
  have hRow : RowOk c y := hInv y hCleanOld
  cases hStep with
  | begin t hSt | fail t hSt | quiet t hSt _ =>
    exact hRow.idle rfl rfl rfl (by simp [hSt]) (by simp)
  | place t x rec hSt hIn hFree =>
    by_cases hY : x = y
    · subst hY
      have hNone : ∀ u e se, c.status u = .op e se → e.loc ≠ x := by
        intro u e se hU hLoc
        have hSome := heapValue_isSome ((hStatus u).stage e se hU)
        rw [← (hRow.pending u e se hU hLoc).1, hFree] at hSome
        cases hSome
      have hValue : value x c.log = none := by rw [← hRow.settled hNone, hFree]
      exact RowOk.start (d := .insert x rec) hNone rfl rfl
        (by simp [State.setContent, State.setStatus, DataRecord.loc, heapValue]) hValue.symm
    · refine hRow.frame ?_ rfl (op_iff_of_update rfl
        (not_op_of_eq hSt (by simp)) (loc_of_eq rfl hY))
      simp [State.setContent, State.setStatus, Ne.symm hY]
  | acquire t x rec hSt hFree =>
    by_cases hY : x = y
    · subst hY
      have hPend := hRow.pending t _ _ hSt rfl
      exact hRow.advance hSt rfl hPend.1 (fun _ => hPend.2.1 rfl)
        (fun h => absurd h (by simp [Stage.lsn?]))
    · exact hRow.frame rfl rfl (op_iff_of_update rfl (loc_of_eq hSt hY) (loc_of_eq rfl hY))
  | unplace t x rec st v hSt hStage hNone =>
    by_cases hY : x = y
    · subst hY
      obtain rfl := hNone hCleanOld
      have hPend := hRow.pending t _ _ hSt rfl
      refine hRow.settle hSt rfl (by simp) ?_
      have hValue : none = value x c.log := hPend.2.1 hStage
      simpa [State.setContent, State.setStatus, DataRecord.loc] using hValue
    · refine hRow.frame ?_ rfl (op_iff_of_update rfl (loc_of_eq hSt hY) (by simp))
      simp [State.setContent, State.setStatus, Ne.symm hY]
  | lockRow t x hSt hFree | flush n _ _ | writeBack disk _ =>
    exact hRow.frame rfl rfl (fun _ _ _ _ => Iff.rfl)
  | read t d hSt hFree hSome hContent hPlaced =>
    by_cases hY : d.loc = y
    · subst hY
      have hNone := no_change_of_read hStatus hLocks hSt hFree hPlaced
      refine RowOk.start hNone rfl rfl ?_ ?_
      · have hHeap : heapValue d .read = d.before := by
          cases d with
          | insert x rec => simp [DataRecord.before] at hSome
          | delete x rec => rfl
          | update x old new => rfl
        exact hContent.trans hHeap.symm
      · rw [← hContent]
        exact hRow.settled hNone
    · exact hRow.frame rfl rfl (op_iff_of_update rfl
        (not_op_of_eq hSt (by simp)) (loc_of_eq rfl hY))
  | log t d st prevLsn hSt hHeld hOrder =>
    by_cases hY : d.loc = y
    · subst hY
      have hPend := hRow.pending t _ _ hSt rfl
      refine hRow.advance hSt rfl ?_ ?_ ?_
      · rw [heapValue_unlogged ((hStatus t).stage _ _ hSt) hHeld]
        exact hPend.1
      · intro h
        simp [Stage.lsn?] at h
      · intro _
        exact value_append_data c t prevLsn d
    · refine hRow.frame rfl ?_ (op_iff_of_update rfl (loc_of_eq hSt hY) (loc_of_eq rfl hY))
      apply value_append_other
      rintro d' ⟨⟩
      exact hY
  | stamp t d lsn hSt =>
    by_cases hY : d.loc = y
    · subst hY
      have hPend := hRow.pending t _ _ hSt rfl
      cases d with
      | insert x rec =>
        refine hRow.settle hSt rfl (by simp [DataRecord.before]) ?_
        exact hPend.1.trans (hPend.2.2 rfl).symm
      | delete x rec | update x old new =>
        exact hRow.advance hSt rfl hPend.1 (fun h => absurd h (by simp [Stage.lsn?]))
          (fun _ => hPend.2.2 rfl)
    · refine hRow.frame rfl rfl (op_iff_of_update rfl (loc_of_eq hSt hY) ?_)
      intro e s h
      split at h
      · obtain ⟨rfl, rfl⟩ := Status.op.inj h
        exact hY
      · cases h
  | apply t d lsn hSt =>
    by_cases hY : d.loc = y
    · subst hY
      have hPend := hRow.pending t _ _ hSt rfl
      have hBefore := ((hStatus t).stage _ _ hSt).2
      cases d with
      | insert x rec => simp [DataRecord.before] at hBefore
      | delete x rec =>
        refine hRow.settle hSt rfl (by simp [DataRecord.after]) ?_
        have hValue := hPend.2.2 rfl
        simpa [State.setContent, State.setStatus] using hValue.symm
      | update x old new =>
        refine hRow.advance hSt rfl ?_ (fun h => absurd h (by simp [Stage.lsn?]))
          (fun _ => hPend.2.2 rfl)
        simp [State.setContent, State.setStatus, heapValue]
    · refine hRow.frame ?_ rfl (op_iff_of_update rfl (loc_of_eq hSt hY) ?_)
      · simp [State.setContent, State.setStatus, Ne.symm hY]
      · intro e s h
        split at h
        · obtain ⟨rfl, rfl⟩ := Status.op.inj h
          exact hY
        · cases h
  | finish t d lsn hSt =>
    by_cases hY : d.loc = y
    · subst hY
      have hPend := hRow.pending t _ _ hSt rfl
      have hBefore := ((hStatus t).stage _ _ hSt).2.1
      refine hRow.settle hSt rfl (by simp) ?_
      have hHeap : heapValue d (.applied lsn) = d.after := by
        cases d with
        | insert x rec => simp [DataRecord.before] at hBefore
        | delete x rec => rfl
        | update x old new => rfl
      exact (hPend.1.trans hHeap).trans (hPend.2.2 rfl).symm
    · exact hRow.frame rfl rfl (op_iff_of_update rfl (loc_of_eq hSt hY) (by simp))
  | spoil t d st lsn v hSt hStage =>
    by_cases hY : d.loc = y
    · -- the row of a rejected change is tainted
      subst hY
      exfalso
      have hLogged : LoggedAt c.log t d lsn := by
        have hOk := (hStatus t).stage _ _ hSt
        rcases hStage with rfl | rfl
        · exact hOk.1
        · exact hOk.1
      rcases hLogged with ⟨r, hMem, hTid, _, hBody⟩
      exact hClean t (by simp [State.setStatus]) ⟨r, hMem, hTid, d, hBody, rfl⟩
    · refine hRow.frame ?_ rfl (op_iff_of_update rfl (loc_of_eq hSt hY) (by simp))
      simp [State.setContent, State.setStatus, Ne.symm hY]
  | rollback t x v owner hSt hChanged _ =>
    by_cases hY : x = y
    · subst hY
      exact absurd hChanged (hClean t hSt)
    · refine hRow.frame ?_ rfl (fun _ _ _ _ => Iff.rfl)
      simp [State.setContent, State.setLock, Ne.symm hY]
  | release t st hSt =>
    refine hRow.idle rfl rfl rfl ?_ ?_
    · rcases hSt with ⟨h, _⟩ | ⟨h, _⟩ <;> simp [h]
    · rcases hSt with ⟨_, rfl⟩ | ⟨_, rfl⟩ <;> simp
  | commit t prevLsn hSt =>
    refine hRow.idle rfl ?_ rfl (by simp [hSt]) (by simp)
    exact value_append_other c t prevLsn (by simp)
  | note t prevLsn body hBody =>
    refine hRow.frame rfl ?_ (fun _ _ _ _ => Iff.rfl)
    apply value_append_other
    rintro d rfl
    rcases hBody with ⟨_, h⟩ | h
    · cases h
    · cases h
  | skip => exact hRow

------------
-- The Order Of Changes Of One Row
------------

/- A commit record of a transaction stands before an LSN. -/
def CommittedBefore
    (log : List LogRecord)
    (t : TxnId)
    (lsn : Int) :
    Prop :=
  ∃ e ∈ log, e.body = .commit ∧ e.tid = t ∧ e.lsn < lsn

/- Strict locks: who changes a row after another transaction
  finds that transaction doomed or committed. -/
def OrderInv (c : State) : Prop :=
  ∀ r ∈ c.log, ∀ r' ∈ c.log, ∀ x,
    Log.Changes x r → Log.Changes x r' →
    r.lsn < r'.lsn → r.tid ≠ r'.tid →
    c.status r.tid = .doomed ∨
      CommittedBefore c.log r.tid r'.lsn

theorem CommittedBefore.mono
    {lsn : Int}
    (hGrows : Grows c c')
    (hCommit : CommittedBefore c.log t lsn) :
    CommittedBefore c'.log t lsn := by
  rcases hCommit with ⟨e, hMem, hRest⟩
  exact ⟨e, mem_log_step hGrows hMem, hRest⟩

/- Who has logged a row whose lock another one holds is over. -/
theorem over_of_lock
    {u : TxnId}
    (hOrder : Log.InOrder c.log)
    (hStatus : StatusInv c)
    (hLocks : LockInv c)
    (hLock : c.locks x = some t)
    (hNe : u ≠ t)
    (hChanged : ChangedBy c.log u x) :
    c.status u = .doomed ∨ CommittedBefore c.log u c.log.length := by
  have hNotLive : ¬ (c.status u).Live := by
    intro hLive
    have hOwn := (hLocks u).logged hLive x hChanged
    rw [hLock] at hOwn
    exact hNe (Option.some.inj hOwn).symm
  cases hSt : c.status u with
  | doomed => exact Or.inl rfl
  | fresh => exact absurd hChanged ((hStatus u).fresh hSt x)
  | done =>
    rcases (hStatus u).committed (Or.inr hSt) x hChanged with ⟨e, hMem, hBody, hTid⟩
    exact Or.inr ⟨e, hMem, hBody, hTid, (hOrder.bounds hMem).2⟩
  | idle | op d st | sealed =>
    rw [hSt] at hNotLive
    exact absurd trivial hNotLive

theorem orderInv_step
    (hStep : Step inRange c c')
    (hOrder : Log.InOrder c.log)
    (hStatus : StatusInv c)
    (hLocks : LockInv c)
    (hInv : OrderInv c) :
    OrderInv c' := by
  have hGrows := grows_step hStep
  have hOld : ∀ r ∈ c.log, ∀ r' ∈ c.log, ∀ x, Changes x r → Changes x r' →
        r.lsn < r'.lsn → r.tid ≠ r'.tid → c'.status r.tid = .doomed ∨
          CommittedBefore c'.log r.tid r'.lsn := by
    intro r hR r' hR' x hX hX' hLt hNe
    rcases hInv r hR r' hR' x hX hX' hLt hNe with h | h
    · exact Or.inl (doomed_step hStep h)
    · exact Or.inr (h.mono hGrows)
  intro r hR r' hR' x hX hX' hLt hNe
  cases hGrows with
  | same hLog =>
    rw [hLog] at hR hR'
    exact hOld r hR r' hR' x hX hX' hLt hNe
  | quiet a hLog hLsn hNo =>
    rw [hLog] at hR hR'
    rcases mem_append.mp hR with hR | hR
    · rcases mem_append.mp hR' with hR' | hR'
      · exact hOld r hR r' hR' x hX hX' hLt hNe
      · rw [mem_singleton] at hR'
        subst hR'
        exact absurd hX' (hNo x)
    · rw [mem_singleton] at hR
      subst hR
      exact absurd hX (hNo x)
  | data t d st a hLog hLsn hTid hBody hSt hHeld =>
    rw [hLog] at hR hR'
    rcases mem_append.mp hR with hROld | hR
    · rcases mem_append.mp hR' with hR' | hR'
      · exact hOld r hROld r' hR' x hX hX' hLt hNe
      · -- the new record: its writer holds the row lock
        rw [mem_singleton] at hR'
        subst hR'
        have hLoc : d.loc = x := by
          rcases hX' with ⟨e, hE, hLoc⟩
          rw [hBody] at hE
          obtain rfl : d = e := by simpa using hE
          exact hLoc
        have hLock : c.locks x = some t := by
          rw [← hLoc]
          exact (hLocks t).stage d st hSt (by rcases hHeld with rfl | rfl <;> simp)
        have hOver := over_of_lock hOrder hStatus hLocks hLock
          (by rw [← hTid]; exact hNe) ⟨r, hROld, rfl, hX⟩
        rcases hOver with h | h
        · exact Or.inl (doomed_step hStep h)
        · rw [hLsn]
          exact Or.inr (h.mono (grows_step hStep))
    · rw [mem_singleton] at hR
      subst hR
      have hBound : r'.lsn ≤ c.log.length := by
        rcases mem_append.mp hR' with hR' | hR'
        · exact le_of_lt (hOrder.bounds hR').2
        · rw [mem_singleton] at hR'
          subst hR'
          omega
      omega

------------
-- Honest Before-Images
------------

/- A change whose row no doomed transaction had changed before
  it carries the row's value at that time. -/
def BeforeInv (c : State) : Prop :=
  ∀ r ∈ c.log, ∀ d, r.body = .data d →
    (∀ a ∈ c.log, Log.Changes d.loc a → a.lsn < r.lsn →
      c.status a.tid ≠ .doomed) →
    d.before = Log.value d.loc (Log.upto (r.lsn - 1) c.log)

theorem beforeInv_step
    (hStep : Step inRange c c')
    (hOrder : Log.InOrder c.log)
    (hRows : RowInv c)
    (hInv : BeforeInv c) :
    BeforeInv c' := by
  have hGrows := grows_step hStep
  -- an old record: its past does not change
  have hOld : ∀ r ∈ c.log, ∀ d, r.body = .data d →
        (∀ a ∈ c'.log, Changes d.loc a → a.lsn < r.lsn → c'.status a.tid ≠ .doomed) → d.before =
          value d.loc (upto (r.lsn - 1) c.log) := by
    intro r hR d hBody hClean
    refine hInv r hR d hBody ?_
    intro a hA hX hLt hDoomed
    exact hClean a (mem_log_step hGrows hA) hX hLt (doomed_step hStep hDoomed)
  intro r hR d hBody hClean
  cases hGrows with
  | same hLog =>
    rw [hLog] at hR ⊢
    exact hOld r hR d hBody hClean
  | quiet a hLog hLsn hNo =>
    rw [hLog] at hR
    rcases mem_concat.mp hR with hR | rfl
    · have hBound := (hOrder.bounds hR).2
      rw [hLog, upto_concat (by omega)]
      exact hOld r hR d hBody hClean
    · exact absurd ⟨d, hBody, rfl⟩ (hNo d.loc)
  | data t e st a hLog hLsn hTid hABody hSt hHeld =>
    rw [hLog] at hR
    rcases mem_append.mp hR with hR | hR
    · have hBound := (hOrder.bounds hR).2
      rw [hLog, upto_concat (by omega)]
      exact hOld r hR d hBody hClean
    · -- the new record: the heap held the row's value
      rw [mem_singleton] at hR
      subst hR
      obtain rfl : e = d := by
        rw [hABody] at hBody
        simpa using hBody
      have hUntainted : Untainted c e.loc := by
        rintro u hDoomed ⟨b, hB, rfl, hX⟩
        refine hClean b ?_ hX ?_ (doomed_step hStep hDoomed)
        · rw [hLog]
          exact mem_append_left _ hB
        · rw [hLsn]
          exact (hOrder.bounds hB).2
      have hPend := (hRows e.loc hUntainted).pending t e st hSt rfl
      rw [hLog, upto_concat (by omega), upto_all]
      · apply hPend.2.1
        rcases hHeld with rfl | rfl <;> rfl
      · intro b hB
        have := (hOrder.bounds hB).2
        omega

end Wal

end Rmdb
