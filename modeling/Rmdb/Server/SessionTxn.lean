import Rmdb.Server.ClientHandler

/-
  This file follows the transactions of one session.

  A begin inside of an explicit transaction starts a second
  one, and a command that fails before its context is filled
  forgets the transaction without an abort.  In sessions
  without these two, only the transaction named by `txn_id` is
  active, and none is left at the end.

  Key definitions include:
    * `ClientHandler.Careful`
    * `ClientHandler.Tidy`

  Key theorems include:
    * `ClientHandler.Tidy.step`
    * `ClientHandler.one_transaction`
-/

namespace Rmdb

open StepSystem Option

variable {tab : TabName} {order : List (RmRecord × Rid)} {fmt : LoadFormat} {file : List UInt8}

------------
-- The Books Of A Server
------------

namespace Engine

/- The books are kept, and no transaction comes back. -/
structure Follows (e e' : Engine) : Prop where
  books : e'.Books
  next : e.nextTxnId ≤ e'.nextTxnId
  back : ∀ t : TxnId, t < e.nextTxnId → e'.Running t → e.Running t

section Follows

variable {e e' : Engine} {op : Op} {t : TxnId}

theorem Books.follows
    (hBooks : e.Books)
    (hStep : e.step op = some e') :
    Follows e e' := by
  have hEffect := hBooks.numbered.cases hStep
  refine ⟨hBooks.step hStep, hEffect.nextTxnId_le, ?_⟩
  intro t hOld hRunning
  by_cases hOp : op.txn? = some t
  · exact hEffect.running hOp
  · have hNe : t ≠ e.nextTxnId := by
      rintro rfl
      exact absurd hOld (lt_irrefl _)
    have hSame := hEffect.txn_of_ne hOp (Or.inr hNe)
    unfold Running Engine.state at hRunning ⊢
    rw [← hSame]
    exact hRunning

theorem Books.follows_stays (hBooks : e.Books)
    (hStays : Stays e e') :
    Follows e e' := ⟨hBooks.stays hStays, hStays.nextTxnId.ge,
    fun t _ hRunning => (hStays.running_iff t).mp hRunning⟩

/- The loader only writes rows and log records. -/
theorem stays_insertLoadedRecord
    {x : Loc}
    {rec : RmRecord}
    {ok : Bool}
    (hRunning : e.Running t)
    (hRun : e.insertLoadedRecord t x rec = some (ok, e')) :
    Stays e e' := by
  unfold insertLoadedRecord at hRun
  split at hRun
  · cases hRun
  · simp only at hRun
    have hTable : ∀ (e : Engine) (table : Table), Stays e (e.setTable x.tab table) := fun e table =>
      ⟨rfl, rfl, rfl, rfl, rfl, rfl, fun _ => rfl, fun _ => rfl, fun _ => rfl, fun _ h => h⟩
    split at hRun
    · rename_i tab' hKeys
      cases hRun
      have hFirst := hTable e tab'
      have hRun₁ := (hFirst.running_iff t).mpr hRunning
      have hWrite : Stays (e.setTable x.tab tab') ((e.setTable x.tab tab').appendWriteRecord t
            (.insertTuple x)) := Stays.setTxn hRun₁ rfl rfl rfl
      have hBoth := hFirst.trans hWrite
      have hRun₂ := (hBoth.running_iff t).mpr hRunning
      generalize (e.setTable x.tab tab').appendWriteRecord t (.insertTuple x) = e₁ at hBoth hRun₂
      have hTxn : Stays e₁ (e₁.setTxn t { e₁.txn t with prevLsn := e₁.log.length }) :=
        Stays.setTxn hRun₂ rfl rfl rfl
      have hLog : Stays e₁ (e₁.addLogRecord t (.data (.insert x rec))) :=
        ⟨rfl, rfl, rfl, rfl, rfl, rfl, hTxn.state, hTxn.mvcc, hTxn.startTs, hTxn.unused⟩
      refine (hBoth.trans hLog).trans ?_
      unfold logChange stampPage
      split
      · exact hTable _ _
      · exact Stays.refl _
    · split at hRun
      · rename_i tab' hDelete
        cases hRun
        exact hTable e tab'
      · cases hRun

theorem stays_insertLoadedRecords
    {ok : Bool}
    (hRunning : e.Running t)
    (hRun : insertLoadedRecords t tab order e = some (ok, e')) :
    Stays e e' := by
  induction order generalizing e with
  | nil =>
    cases hRun
    exact Stays.refl _
  | cons p rest ih =>
    unfold insertLoadedRecords at hRun
    split at hRun
    · cases hRun
    · rename_i e₁ hFirst
      cases hRun
      exact stays_insertLoadedRecord hRunning hFirst
    · rename_i e₁ hFirst
      have hStays := stays_insertLoadedRecord hRunning hFirst
      exact hStays.trans (ih ((hStays.running_iff t).mpr hRunning) hRun)

theorem stays_loadTable {err : Option LoadError}
    (hRun : e.loadTable t tab fmt file order = some (err, e')) :
    Stays e e' := by
  unfold loadTable at hRun
  split at hRun
  · cases hRun
  · rename_i hGrowing
    simp only [ne_eq, not_not] at hGrowing
    have hRunning : e.Running t := Or.inl hGrowing
    split at hRun
    · cases hRun
      exact Stays.refl _
    · split at hRun
      · split at hRun
        · cases hRun
        · rename_i e₁ hRecords
          cases hRun
          exact stays_insertLoadedRecords hRunning hRecords
        · rename_i e₁ hRecords
          cases hRun
          exact stays_insertLoadedRecords hRunning hRecords
      · cases hRun

end Follows

end Engine

variable {c c' : Catalog}

theorem Catalog.eng_of_op {op : Op}
    (hStep : c.step (.op op) = some c') : c.eng.step op = some c'.eng := by
  have hOp : c.stepOp op = some c' := hStep
  unfold Catalog.stepOp at hOp
  split at hOp
  · cases hTr : c.tr.step op with
    | none => simp [hTr] at hOp
    | some tr =>
      simp only [hTr] at hOp
      split at hOp
      · cases hOp
        exact (Recorded.step_eq_some hTr).1
      · cases hOp
  · cases hOp

theorem Catalog.stays_of_ddl {ddl : Ddl}
    (hStep : c.step (.ddl ddl) = some c') : Engine.Stays c.eng c'.eng := by
  have hDdl : c.stepDdl ddl = some c' := hStep
  unfold Catalog.stepDdl at hDdl
  split at hDdl
  · cases hDdl
    exact ⟨rfl, rfl, rfl, rfl, rfl, rfl, fun _ => rfl, fun _ => rfl, fun _ => rfl, fun _ h => h⟩
  · cases hDdl

theorem Catalog.follows
    {stmt : Stmt}
    (hBooks : c.eng.Books)
    (hStep : c.step stmt = some c') :
    Engine.Follows c.eng c'.eng := by
  cases stmt with
  | op op => exact hBooks.follows (Catalog.eng_of_op hStep)
  | ddl ddl => exact hBooks.follows_stays (Catalog.stays_of_ddl hStep)

------------
-- The Invariant
------------

namespace ClientHandler

/- No transaction is active in the session. -/
def Inactive (h : ClientHandler) : Prop :=
  ∀ t, h.txnId = some t → ¬ h.eng.Running t

instance (h : ClientHandler) : Decidable h.Inactive := by
  unfold Inactive
  infer_instance

/- While a transaction is active, no command fails before its
  context is filled and none begins another one. The abort of
  an abort statement returns. -/
def Careful (h : ClientHandler) :
    SessionAct → Prop
| .throw => h.phase.ctx = none → h.Inactive
| .complete =>
  match h.phase with
  | .executing .txnBegin _ _ => h.Inactive
  | .executing .txnAbort _ (some t) =>
    h.eng.Running t →
      (h.cat.step (.op (.abort t))).isSome = true
  | _ => True
| _ => True

instance
    (h : ClientHandler)
    (act : SessionAct) :
    Decidable (h.Careful act) := by
  cases act with
  | complete =>
    unfold Careful
    simp only
    split <;> infer_instance
  | throw =>
    unfold Careful
    infer_instance
  | _ =>
    unfold Careful
    infer_instance

variable {h h' : ClientHandler} {ctx : Option TxnId} {op : TxnId → Op}

/- The end of a transaction is a step if it is active. -/
theorem endTxn_cases (hRun : h.endTxn ctx op = some h') :
    ∃ c, h' = { h with cat := c, txnId := none, phase := .idle } ∧
      (c = h.cat ∧ (∀ t, ctx = some t → ¬ h.eng.Running t) ∨ ∃ t,
        ctx = some t ∧ h.eng.Running t ∧
          h.cat.step (.op (op t)) = some c) := by
  unfold endTxn at hRun
  cases ctx with
  | none =>
    cases hRun
    refine ⟨h.cat, rfl, Or.inl ⟨rfl, ?_⟩⟩
    intro t hT
    cases hT
  | some t =>
    simp only at hRun
    split at hRun
    · rename_i hRunning
      split at hRun
      · cases hRun
      · rename_i c hStep
        cases hRun
        exact ⟨c, rfl, Or.inr ⟨t, rfl, hRunning, hStep⟩⟩
    · rename_i hEnded
      cases hRun
      refine ⟨h.cat, rfl, Or.inl ⟨rfl, ?_⟩⟩
      intro u hU
      cases hU
      exact hEnded

/- The end of a statement is the commit of its transaction. -/
theorem finishImplicit_cases
    {t : TxnId}
    (hRun : h.finishImplicitTransaction t = some h') :
    h.txnMode t = true ∧ h' = { h with phase := .idle } ∨
      ∃ c, h.cat.step (.op (.commit t)) = some c ∧
        h' = { h with cat := c, txnId := none, phase := .idle } := by
  unfold finishImplicitTransaction at hRun
  split at hRun
  · rename_i hMode
    cases hRun
    exact Or.inl ⟨hMode, rfl⟩
  · split at hRun
    · cases hRun
    · rename_i c hStep
      cases hRun
      exact Or.inr ⟨c, hStep, rfl⟩

theorem withCat_cases {o : Option Catalog}
    (hRun : h.withCat o = some h') :
    ∃ c, o = some c ∧ h' = { h with cat := c } := by
  cases o with
  | none => cases hRun
  | some c =>
    cases hRun
    exact ⟨c, rfl, rfl⟩

/- A statement or a LOAD runs in a transaction. -/
def Runs (h : ClientHandler) (t : TxnId) : Prop :=
  h.phase = .loading t ∨ ∃ raw, h.phase = .executing .statement raw (some t)

theorem Runs.ctx_eq
    {t : TxnId}
    (hRuns : h.Runs t) :
    h.phase.ctx = some t := by
  rcases hRuns with hPhase | ⟨raw, hPhase⟩ <;> rw [hPhase] <;> rfl

/- The steps of the session, with the tests that lead to them. -/
inductive Steps (h : ClientHandler) : SessionAct → ClientHandler → Prop where
  | other (stmt c) (hOther : ∀ op, stmt = .op op → ∀ t ∈ h.created, op.txn? ≠ some t)
      (hStep : h.cat.step stmt = some c) : Steps h (.other stmt) { h with cat := c }
  | recv (cmd) (hIdle : h.phase = .idle) : Steps h (.recv cmd) (h.recv cmd)
  | analysed (query raw) (hPhase : h.phase = .analysing query raw) :
      Steps h .analysed (h.analysed query raw)
  | row (op t c) (hTxn : h.statementTxn = some t) (hActor : op.actor? = some t)
      (hStep : h.cat.step (.op op) = some c) : Steps h (.row op) { h with cat := c }
  | ddl (ddl t c) (hTxn : h.statementTxn = some t) (hStep : h.cat.step (.ddl ddl) = some c) :
      Steps h (.ddl ddl) { h with cat := c }
  | load (tab fmt file order t loads h') (hRuns : h.Runs t)
      (hRun : h.load t loads tab fmt file order = some h') :
      Steps h (.load tab fmt file order) h'
  | throw (loads h') (hRun : h.handle loads h.phase.ctx = some h') : Steps h .throw h'
  | complete (query raw ctx h') (hPhase : h.phase = .executing query raw ctx)
      (hRun : h.complete query raw ctx = some h') : Steps h .complete h'
  | loaded (t h') (hPhase : h.phase = .loading t)
      (hRun : h.finishImplicitTransaction t = some h') : Steps h .complete h'
  | completeThrows (t h') (hRuns : h.Runs t) (hRun : h.abortActiveTransaction (some t) = some h') :
      Steps h .completeThrows h'
  | disconnect (h₁) (hIdle : h.phase = .idle)
      (hRun : h.abortActiveTransaction h.getTransaction = some h₁) :
      Steps h .disconnect { h₁ with phase := .closed }

theorem step_cases
    {act : SessionAct}
    (hStep : h.step act = some h') :
    Steps h act h' := by
  cases act with
  | other stmt =>
    cases stmt with
    | op op =>
      simp only [step] at hStep
      split at hStep
      · rename_i hOther
        rcases withCat_cases hStep with ⟨c, hCat, rfl⟩
        refine .other _ c ?_ hCat
        rintro _ ⟨⟩
        exact hOther
      · cases hStep
    | ddl ddl =>
      rcases withCat_cases hStep with ⟨c, hCat, rfl⟩
      refine .other _ c ?_ hCat
      rintro _ ⟨⟩
  | recv cmd =>
    simp only [step] at hStep
    split at hStep <;> cases hStep
    exact .recv cmd ‹_›
  | analysed =>
    simp only [step] at hStep
    split at hStep <;> cases hStep
    exact .analysed _ _ ‹_›
  | row op =>
    simp only [step] at hStep
    split at hStep
    · rename_i hActor
      rcases ne_none_iff_exists'.mp hActor.2 with ⟨t, hTxn⟩
      rcases withCat_cases hStep with ⟨c, hCat, rfl⟩
      exact .row op t c hTxn (hActor.1.trans hTxn) hCat
    · cases hStep
  | ddl ddl =>
    simp only [step] at hStep
    split at hStep
    · rename_i hSome
      rcases ne_none_iff_exists'.mp hSome with ⟨t, hTxn⟩
      rcases withCat_cases hStep with ⟨c, hCat, rfl⟩
      exact .ddl ddl t c hTxn hCat
    · cases hStep
  | load tab fmt file order =>
    simp only [step] at hStep
    split at hStep
    · exact .load _ _ _ _ _ _ h' (Or.inl ‹_›) hStep
    · exact .load _ _ _ _ _ _ h' (Or.inr ⟨_, ‹_›⟩) hStep
    · cases hStep
  | throw =>
    simp only [step] at hStep
    split at hStep
    case h_5 => cases hStep
    all_goals
      rename_i hPhase
      refine .throw ?_ h' ?_
      rotate_left
      · rw [hPhase]
        exact hStep
  | complete =>
    simp only [step] at hStep
    split at hStep
    · exact .complete _ _ _ h' ‹_› hStep
    · split at hStep
      · exact .loaded _ h' ‹_› hStep
      · cases hStep
    · cases hStep
  | completeThrows =>
    simp only [step] at hStep
    split at hStep
    · split at hStep
      · cases hStep
      · exact .completeThrows _ h' (Or.inr ⟨_, ‹_›⟩) hStep
    · split at hStep
      · cases hStep
      · exact .completeThrows _ h' (Or.inl ‹_›) hStep
    · cases hStep
  | disconnect =>
    simp only [step] at hStep
    split at hStep
    · rcases map_eq_some_iff.mp hStep with ⟨h₁, hEnd, rfl⟩
      exact .disconnect h₁ ‹_› hEnd
    · cases hStep

/- The context of a command: an end finds the transaction that
  is named, and only statements have another one. -/
def Fits (txnId : Option TxnId) :
    CmdPhase → Prop
| .executing .statement _ _ => True
| .executing query _ ctx =>
  if query.ends then ctx = none → txnId = none else ctx = none
| _ => True

structure Tidy (h : ClientHandler) : Prop where
  books : h.eng.Books
  created : ∀ t ∈ h.created, t < h.eng.nextTxnId
  named : ∀ t ∈ h.created, h.eng.Running t → h.txnId = some t
  ctx : ∀ t, h.phase.ctx = some t → h.txnId = some t
  -- between commands the transaction is an explicit one
  mode : ∀ t, h.txnId = some t → h.txnMode t = true ∨ h.phase.ctx = some t
  fits : Fits h.txnId h.phase
  closed : h.phase = .closed → h.txnId = none

namespace Tidy

variable {h h' : ClientHandler} {t : TxnId} {c : Catalog}

theorem connect
    {cat : Catalog}
    (hBooks : cat.eng.Books) :
    (ClientHandler.connect cat).Tidy := by
  refine ⟨hBooks, ?_, ?_, ?_, ?_, ?_, ?_⟩
  · intro t hMem
    cases hMem
  · intro t hMem
    cases hMem
  · intro t hCtx
    cases hCtx
  · intro t hTxn
    cases hTxn
  · trivial
  · intro hPhase
    cases hPhase

variable {phase : CmdPhase}

theorem txnId_of_getTransaction (hGet : h.getTransaction = some t) :
    h.txnId = some t := by
  exact (filter_eq_some_iff.mp hGet).1

theorem ended_of_commit
    (t : TxnId)
    (c : Catalog)
    (hStep : h.cat.step (.op (.commit t)) = some c) :
    ¬ c.eng.Running t := by
  have hRun : h.eng.commit t = some c.eng := Catalog.eng_of_op hStep
  rcases Engine.commit_cases hRun with ⟨e₁, hCommits, hLast⟩
  have hEnded : ¬ e₁.Running t := (Consistent.leaves_of_commits hCommits).ended
  rcases hLast with hSame | ⟨-, hSame⟩
  · rw [hSame]
    exact hEnded
  · rw [hSame]
    exact hEnded

theorem ended_of_abort
    (hBooks : h.eng.Books)
    (t : TxnId)
    (c : Catalog)
    (hStep : h.cat.step (.op (.abort t)) = some c) :
    ¬ c.eng.Running t := by
  have hEng := Catalog.eng_of_op hStep
  cases hBooks.numbered.cases hEng with
  | quiet _ _ _ hOp _ => cases hOp
  | change _ _ _ _ hOp _ _ => cases hOp
  | abort _ hRunning hAbort =>
    exact Consistent.not_running_of_state (Engine.state_of_abort hAbort) (Or.inr rfl)

variable (hTidy : h.Tidy)
include hTidy

/- The database changes, the session does not. -/
theorem withCat (hFollows : Engine.Follows h.eng c.eng) :
    Tidy { h with cat := c } := by
  refine ⟨hFollows.books, ?_, ?_, hTidy.ctx, hTidy.mode, hTidy.fits, hTidy.closed⟩
  · intro t hMem
    exact lt_of_lt_of_le (hTidy.created t hMem) (Int.ofNat_le.mpr hFollows.next)
  · intro t hMem hRunning
    exact hTidy.named t hMem (hFollows.back t (hTidy.created t hMem) hRunning)

/- The session is between commands without a transaction. -/
theorem forget
    (hInactive : h.Inactive)
    (open? aborted? : Bool) :
    Tidy { h with
      txnId := none,
      explicitTxnOpen := open?,
      explicitTxnAborted := aborted?,
      phase := .idle } := by
  refine ⟨hTidy.books, hTidy.created, ?_, ?_, ?_, ?_, ?_⟩
  · intro t hMem hRunning
    exact absurd hRunning (hInactive t (hTidy.named t hMem hRunning))
  · intro t hCtx
    cases hCtx
  · intro t hTxn
    cases hTxn
  · trivial
  · intro hPhase
    cases hPhase

/- The phase changes; a transaction of the new context is the
  one that is named. -/
theorem toPhase
    (hCtx : ∀ t, phase.ctx = some t → h.txnId = some t)
    (hMode : ∀ t, h.txnId = some t → h.phase.ctx = some t → h.txnMode t = true ∨
      phase.ctx = some t)
    (hFits : Fits h.txnId phase)
    (hOpen : phase ≠ .closed) :
    Tidy { h with phase := phase } := by
  refine ⟨hTidy.books, hTidy.created, hTidy.named, hCtx, ?_, hFits, fun h => absurd h hOpen⟩
  intro t hTxn
  rcases hTidy.mode t hTxn with hMine | hMine
  · exact Or.inl hMine
  · exact hMode t hTxn hMine

/- The phase changes between places without a context. -/
theorem between
    (hBefore : h.phase.ctx = none)
    (hCtx : phase.ctx = none)
    (hFits : Fits h.txnId phase)
    (hOpen : phase ≠ .closed) :
    Tidy { h with phase := phase } := by
  refine hTidy.toPhase ?_ ?_ hFits hOpen
  · intro t hMine
    cases hMine.symm.trans hCtx
  · intro t _ hMine
    cases hMine.symm.trans hBefore

/- A transaction begins in a session without an active one. -/
theorem beginTxn
    (hInactive : h.Inactive)
    (explicit : Bool)
    (phase : CmdPhase)
    (hCtx : ∀ t, phase.ctx = some t → t = h.eng.nextTxnId)
    (hMode : explicit = true ∨ phase.ctx = some (h.eng.nextTxnId : Int))
    (hFits : Fits (some (h.eng.nextTxnId : Int)) phase)
    (hOpen : phase ≠ .closed) :
    Tidy { h.beginTxn explicit with phase := phase } := by
  have hStep : h.eng.step (.begin h.level) = some (h.eng.begin h.level) := rfl
  have hFollows := hTidy.books.follows hStep
  have hNext : (h.eng.begin h.level).nextTxnId = h.eng.nextTxnId + 1 := by
    unfold Engine.begin
    split
    · rfl
    · rfl
  refine ⟨hFollows.books, ?_, ?_, ?_, ?_, hFits, ?_⟩
  · intro t hMem
    have hLess : ∀ i : Int, i = (h.eng.nextTxnId : Int) ∨ i < (h.eng.nextTxnId : Int) →
          i < ((h.eng.nextTxnId + 1 : Nat) : Int) := by
      intro i hI
      omega
    change t < ((h.eng.begin h.level).nextTxnId : Int)
    rw [hNext]
    apply hLess
    rcases List.mem_cons.mp hMem with rfl | hOld
    · exact Or.inl rfl
    · exact Or.inr (hTidy.created t hOld)
  · intro t hMem hRunning
    rcases List.mem_cons.mp hMem with rfl | hOld
    · rfl
    · have hBefore := hFollows.back t (hTidy.created t hOld) hRunning
      exact absurd hBefore (hInactive t (hTidy.named t hOld hBefore))
  · intro t hMine
    rw [hCtx t hMine]
    rfl
  · intro t hTxn
    cases hTxn
    rcases hMode with rfl | hHere
    · left
      exact Function.update_self _ _ _
    · exact Or.inr hHere
  · intro hClosed
    exact absurd hClosed hOpen

/- Without a current transaction none is active. -/
theorem inactive_of_current
    (hCtx : h.phase.ctx = none)
    (hNone : h.current = none) :
    h.Inactive := by
  intro t hTxn hRunning
  rcases hTidy.mode t hTxn with hMode | hMine
  · have hSome : h.current = some t := by
      unfold current getTransaction
      simp [hTxn, hMode, hRunning]
    rw [hSome] at hNone
    cases hNone
  · cases hMine.symm.trans hCtx

/- A statement gets its transaction. -/
theorem ensure
    (hBefore : h.phase.ctx = none)
    (hCtx : phase.ctx = some h.ensureStatementTransaction.2)
    (hFits : ∀ txnId, Fits txnId phase) :
    Tidy { h.ensureStatementTransaction.1 with
      phase := phase } := by
  have hOpen : phase ≠ .closed := by
    rintro rfl
    cases hCtx
  unfold ensureStatementTransaction at hCtx ⊢
  cases hCurrent : h.current with
  | none =>
    simp only [hCurrent] at hCtx ⊢
    refine hTidy.beginTxn (hTidy.inactive_of_current hBefore hCurrent) false phase ?_
      (Or.inr hCtx) (hFits _) hOpen
    intro t hMine
    exact some.inj (hMine.symm.trans hCtx)
  | some t =>
    simp only [hCurrent] at hCtx ⊢
    have hTxn : h.txnId = some t := by
      exact txnId_of_getTransaction (filter_eq_some_iff.mp hCurrent).1
    refine hTidy.toPhase ?_ ?_ (hFits _) hOpen
    · intro u hMine
      rw [hTxn]
      exact hCtx.symm.trans hMine
    · intro u _ hMine
      cases hMine.symm.trans hBefore

/- The transaction of the context ends. -/
theorem endTxn
    (hNone : ctx = none → h.Inactive)
    (hSome : ∀ t, ctx = some t → h.txnId = some t)
    (hEnds : ∀ t c, h.cat.step (.op (op t)) = some c → ¬ c.eng.Running t)
    (hRun : h.endTxn ctx op = some h') :
    h'.Tidy := by
  rcases endTxn_cases hRun with ⟨c, rfl, ⟨rfl, hEnded⟩ | ⟨t, hCtx, -, hStep⟩⟩
  · refine hTidy.forget ?_ _ _
    cases ctx with
    | none => exact hNone rfl
    | some t =>
      intro u hU
      obtain rfl := some.inj ((hSome t rfl).symm.trans hU)
      exact hEnded t rfl
  · have hTidy' := hTidy.withCat (Catalog.follows hTidy.books hStep)
    refine hTidy'.forget ?_ _ _
    intro u hU
    obtain rfl := some.inj ((hSome t hCtx).symm.trans hU)
    exact hEnds t c hStep

theorem flags (open? aborted? : Bool) :
    Tidy { h with
      explicitTxnOpen := open?,
      explicitTxnAborted := aborted? } :=
  ⟨hTidy.books, hTidy.created, hTidy.named, hTidy.ctx, hTidy.mode, hTidy.fits, hTidy.closed⟩

theorem setFlags
    (query : Query)
    (raw : Bool) :
    (h.setFlags query raw).Tidy := by
  unfold ClientHandler.setFlags
  split
  · exact hTidy.flags _ _
  · split
    · exact hTidy.flags _ _
    · exact hTidy

theorem recv
    (hIdle : h.phase = .idle)
    (cmd : Command) :
    (h.recv cmd).Tidy := by
  have hCtx : h.phase.ctx = none := by
    rw [hIdle]
    rfl
  cases cmd with
  | setOutputFileOff => exact hTidy
  | unparsed => exact hTidy
  | load =>
    unfold ClientHandler.recv
    simp only
    split
    · exact hTidy
    · exact hTidy.ensure hCtx rfl (fun _ => trivial)
  | sql query raw => exact hTidy.between hCtx rfl trivial (by simp)

/- What is named between commands is tracked. -/
theorem txnId_of_untracked (hCtx : h.phase.ctx = none)
    (hGet : h.getTransaction = none) : h.txnId = none := by
  cases hTxn : h.txnId with
  | none => rfl
  | some t =>
    rcases hTidy.mode t hTxn with hMode | hMine
    · have hSome : h.getTransaction = some t := by
        unfold getTransaction
        simp [hTxn, hMode]
      rw [hSome] at hGet
      cases hGet
    · cases hMine.symm.trans hCtx

theorem analysed
    {query : Query}
    {raw : Bool}
    (hPhase : h.phase = .analysing query raw) :
    (h.analysed query raw).Tidy := by
  have hCtx : h.phase.ctx = none := by
    rw [hPhase]
    rfl
  have hIdle : Tidy { h with phase := .idle } := hTidy.between hCtx rfl trivial (by simp)
  unfold ClientHandler.analysed
  split
  · exact hIdle.flags _ _
  · split
    · exact hIdle
    · split
      · rename_i hStatement
        subst hStatement
        exact hTidy.ensure hCtx rfl (fun _ => trivial)
      · rename_i hOther
        have hFits : ∀ ctx, (if query.ends then ctx = none → h.txnId = none
              else ctx = none) → Fits h.txnId (.executing query raw ctx) := by
          intro ctx hCase
          cases query with
          | statement => exact absurd rfl hOther
          | _ => exact hCase
        split
        · rename_i hEnds
          cases hGet : h.getTransaction with
          | none =>
            refine hTidy.between hCtx rfl (hFits none ?_) (by simp)
            rw [if_pos hEnds]
            intro _
            exact hTidy.txnId_of_untracked hCtx hGet
          | some t =>
            have hTxn := txnId_of_getTransaction hGet
            refine hTidy.toPhase (fun u hMine => hTxn.trans hMine)
              (fun u hU _ => Or.inr (hTxn.symm.trans hU)) (hFits (some t) ?_) (by simp)
            rw [if_pos hEnds]
            intro hBad
            cases hBad
        · rename_i hEnds
          refine hTidy.between hCtx rfl (hFits none ?_) (by simp)
          rw [if_neg hEnds]

/- The loader has run or has thrown. -/
theorem load
    {loads : Bool}
    (hCtx : h.phase.ctx = some t)
    (hRun : h.load t loads tab fmt file order = some h') :
    h'.Tidy := by
  unfold ClientHandler.load at hRun
  split at hRun
  · cases hRun
  · cases hRun
  · rename_i err e _ hLoad
    simp only at hRun
    have hStays := Engine.stays_loadTable hLoad
    have hAfter : Tidy { h with
        cat := { h.cat with tr := ⟨e, h.cat.tr.hist⟩ } } :=
      hTidy.withCat (hTidy.books.follows_stays hStays)
    split at hRun
    · cases hRun
      refine hAfter.toPhase ?_ ?_ trivial (by simp)
      · intro u hMine
        rw [← hMine]
        exact hTidy.ctx t hCtx
      · exact fun u _ hMine => Or.inr (hCtx.symm.trans hMine)
    · cases hRun
      exact hAfter

theorem handle
    {loads : Bool}
    (hCtx : h.phase.ctx = ctx)
    (hCareful : h.phase.ctx = none → h.Inactive)
    (hRun : h.handle loads ctx = some h') :
    h'.Tidy := by
  refine endTxn (hTidy.flags _ _) ?_ ?_ ?_ hRun
  · intro hNone
    exact hCareful (hCtx.trans hNone)
  · intro t hSome
    exact hTidy.ctx t (hCtx.trans hSome)
  · exact ended_of_abort hTidy.books

theorem finishImplicit (hCtx : h.phase.ctx = some t)
    (hRun : h.finishImplicitTransaction t = some h') :
    h'.Tidy := by
  have hTxn := hTidy.ctx t hCtx
  rcases finishImplicit_cases hRun with ⟨hMode, rfl⟩ | ⟨c, hStep, rfl⟩
  · refine hTidy.toPhase ?_ ?_ trivial (by simp)
    · intro u hBad
      cases hBad
    · intro u hU _
      obtain rfl := some.inj (hTxn.symm.trans hU)
      exact Or.inl hMode
  · refine (hTidy.withCat (Catalog.follows hTidy.books hStep)).forget ?_ _ _
    intro u hU
    obtain rfl := some.inj (hTxn.symm.trans hU)
    exact ended_of_commit t c hStep

theorem complete
    {query : Query}
    {raw : Bool}
    (hPhase : h.phase = .executing query raw ctx)
    (hCareful : h.Careful .complete)
    (hRun : h.complete query raw ctx = some h') :
    h'.Tidy := by
  have hCtx : h.phase.ctx = ctx := by
    rw [hPhase]
    rfl
  have hSome : ∀ t, ctx = some t → h.txnId = some t := by
    intro t hMine
    exact hTidy.ctx t (hCtx.trans hMine)
  have hFits := hTidy.fits
  rw [hPhase] at hFits
  cases query with
  | txnBegin =>
    cases hRun
    have hInactive : h.Inactive := by
      unfold Careful at hCareful
      rw [hPhase] at hCareful
      exact hCareful
    refine (hTidy.beginTxn hInactive true .idle ?_ (Or.inl rfl) trivial (by simp)).setFlags _ _
    intro t hBad
    cases hBad
  | txnCommit =>
    rcases map_eq_some_iff.mp hRun with ⟨h₁, hEnd, rfl⟩
    refine (hTidy.endTxn ?_ hSome ended_of_commit hEnd).setFlags _ _
    intro hNone t hTxn
    rw [hFits hNone] at hTxn
    cases hTxn
  | txnAbort =>
    rcases map_eq_some_iff.mp hRun with ⟨h₁, hEnd, rfl⟩
    refine (hTidy.endTxn ?_ hSome (ended_of_abort hTidy.books) hEnd).setFlags _ _
    intro hNone t hTxn
    rw [hFits hNone] at hTxn
    cases hTxn
  | staticCheckpoint | setKnob =>
    cases hRun
    exact hTidy.between (hCtx.trans hFits) rfl trivial (by simp)
  | setIsolation level =>
    cases hRun
    have hIdle : Tidy { h with phase := .idle } :=
      hTidy.between (hCtx.trans hFits) rfl trivial (by simp)
    exact ⟨hIdle.books, hIdle.created, hIdle.named, hIdle.ctx, hIdle.mode, hIdle.fits, hIdle.closed⟩
  | statement =>
    cases ctx with
    | none => cases hRun
    | some t =>
      unfold ClientHandler.complete at hRun
      simp only at hRun
      split at hRun
      · exact hTidy.finishImplicit hCtx hRun
      · cases hRun

/- The session ends. -/
theorem disconnect
    {h₁ : ClientHandler}
    (hIdle : h.phase = .idle)
    (hRun : h.abortActiveTransaction h.getTransaction = some h₁) :
    Tidy { h₁ with phase := .closed } := by
  have hCtx : h.phase.ctx = none := by
    rw [hIdle]
    rfl
  have hTidy₁ : h₁.Tidy := by
    refine hTidy.endTxn ?_ ?_ (ended_of_abort hTidy.books) hRun
    · intro hNone t hTxn
      rw [hTidy.txnId_of_untracked hCtx hNone] at hTxn
      cases hTxn
    · intro t hGet
      exact txnId_of_getTransaction hGet
  have hNone : h₁.txnId = none := by
    rcases endTxn_cases hRun with ⟨c, rfl, -⟩
    rfl
  refine ⟨hTidy₁.books, hTidy₁.created, hTidy₁.named, ?_, ?_, trivial, fun _ => hNone⟩
  · intro t hBad
    cases hBad
  · intro t hTxn
    rw [hNone] at hTxn
    cases hTxn

/- One step of a careful session or of another one. -/
theorem step
    {act : SessionAct}
    (hCareful : h.Careful act)
    (hStep : h.step act = some h') :
    h'.Tidy := by
  cases step_cases hStep with
  | other stmt c hOther hCat | row op t c hTxn hActor hCat | ddl ddl t c hTxn hCat =>
    exact hTidy.withCat (Catalog.follows hTidy.books hCat)
  | recv cmd hIdle => exact hTidy.recv hIdle cmd
  | analysed query raw hPhase => exact hTidy.analysed hPhase
  | load tab fmt file order t loads _ hRuns hRun => exact hTidy.load hRuns.ctx_eq hRun
  | throw loads _ hRun => exact hTidy.handle rfl hCareful hRun
  | complete query raw ctx _ hPhase hRun => exact hTidy.complete hPhase hCareful hRun
  | loaded t _ hPhase hRun => exact hTidy.finishImplicit (Runs.ctx_eq (Or.inl hPhase)) hRun
  | completeThrows t _ hRuns hRun =>
    refine hTidy.endTxn ?_ ?_ (ended_of_abort hTidy.books) hRun
    · intro hBad
      cases hBad
    · rintro u ⟨⟩
      exact hTidy.ctx t hRuns.ctx_eq
  | disconnect h₁ hIdle hRun => exact hTidy.disconnect hIdle hRun

end Tidy

------------
-- One Transaction
------------

/- A transaction is in no book of the manager. -/
def Gone (e : Engine) (t : TxnId) : Prop :=
  ¬ e.Running t ∧
    (∀ x, e.locks x ≠ some t ∧ t ∉ e.sharedLocks x) ∧
    ∃ l, e.RosterOf l ∧ t ∉ l

/- Only the transaction that is named is active, and at the
  end of the session none is left. -/
theorem one_transaction
    {db : Db}
    {tabCols : TabName → List ColMeta}
    {isTable : TabName → Bool}
    {stmts : List Stmt}
    {cat : Catalog}
    {acts : List SessionAct}
    {h : ClientHandler}
    (hBefore : (Catalog.init db tabCols isTable).run stmts = some cat)
    (hCareful : StepSystem.Guarded step Careful (connect cat) acts)
    (hRun : (connect cat).run acts = some h) :
    (∀ t ∈ h.created, h.eng.Running t → h.txnId = some t) ∧
      (h.phase = .closed → ∀ t ∈ h.created, Gone h.eng t) := by
  have hBooks : cat.eng.Books := invariant_of_run (fun c : Catalog => c.eng.Books)
      (fun _ _ _ hInv hStep => (Catalog.follows hInv hStep).books)
      (Engine.Books.init db tabCols) hBefore
  have hTidy : h.Tidy := invariant_of_guarded_run Tidy
      (fun _ _ _ hInv hOk hStep => hInv.step hOk hStep) (Tidy.connect hBooks) hCareful hRun
  refine ⟨hTidy.named, ?_⟩
  intro hClosed t hMem
  have hEnded : ¬ h.eng.Running t := by
    intro hRunning
    have hTxn := hTidy.named t hMem hRunning
    rw [hTidy.closed hClosed] at hTxn
    cases hTxn
  exact ⟨hEnded, hTidy.books.ended hEnded⟩

/- A session that leaves in the middle of a transaction. -/
def leaves : List SessionAct :=
  [.recv (.sql .txnBegin true), .analysed, .complete,
    .recv (.sql .statement false), .analysed,
    .row (.insertRow 0 Sys.firstRow [7] []), .complete,
    .disconnect]

theorem one_transaction_leaves :
    ∃ h, (connect Catalog.oneTable).run leaves = some h ∧
      0 ∈ h.created ∧ h.phase = .closed ∧ Gone h.eng 0 := by
  have hCareful : Guarded step Careful (connect Catalog.oneTable) leaves := by
    refine ⟨trivial, trivial, ?_, trivial, trivial, trivial, trivial, trivial, trivial⟩
    decide
  have hRun : (connect Catalog.oneTable).run leaves = some _ := (Option.some_get (by decide)).symm
  have hInit : Catalog.oneTable.run [] = some Catalog.oneTable := rfl
  have hBoth := one_transaction hInit hCareful hRun
  exact ⟨_, hRun, by decide, by decide, hBoth.2 (by decide) 0 (by decide)⟩

/- A second begin leaves two transactions active. A statement
  that fails in its analysis loses the transaction, which is
  still active with its lock at the end of the session. -/
theorem transactions_left :
    (∃ h, (connect Catalog.oneTable).run
        [.recv (.sql .txnBegin true), .analysed, .complete,
          .recv (.sql .txnBegin true), .analysed, .complete] = some h ∧
      0 ∈ h.created ∧ h.eng.Running 0 ∧ 1 ∈ h.created ∧ h.eng.Running 1 ∧
      h.txnId = some 1) ∧
    ∃ h, (connect Catalog.oneTable).run
        [.recv (.sql .txnBegin true), .analysed, .complete,
          .recv (.sql .statement false), .analysed,
          .row (.insertRow 0 Sys.firstRow [7] []), .complete,
          .recv (.sql .statement false), .throw, .disconnect] = some h ∧
      h.phase = .closed ∧ 0 ∈ h.created ∧ h.eng.Running 0 ∧
      h.eng.locks Sys.firstRow = some 0 := by
  constructor
  · exact exists_of_any (by decide)
  · exact exists_of_any (by decide)

end ClientHandler

end Rmdb
