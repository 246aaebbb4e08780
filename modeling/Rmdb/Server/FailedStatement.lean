import Rmdb.Server.SessionTxn

/-
  This file follows a command that fails inside of an explicit
  transaction.

  The handlers abort the transaction of the command's context.
  The context is empty while the command is analysed, so an
  error there leaves the writes and the locks of the
  transaction in place.  In sessions without such errors the
  transaction is rolled back before the next command is read,
  and the session is then halted until its closing commit,
  abort or rollback.

  Key definitions include:
    * `ClientHandler.Orderly`
    * `ClientHandler.RolledBack`
    * `ClientHandler.Halted`

  Key theorems include:
    * `ClientHandler.Ready.step`
    * `ClientHandler.Halted.step`
    * `ClientHandler.failed_statement`
-/

namespace Rmdb

open StepSystem Option

theorem Catalog.step_begin
    (c : Catalog)
    (level : IsolationLevel) :
    c.step (.op (.begin level)) =
      some { c with
        tr := ⟨c.eng.begin level, c.tr.hist⟩ } := by
  have hTable : ∀ tab, Op.table? (.begin level) = some tab → c.isTable tab = true := by
    intro tab hTab
    cases hTab
  have hTr : c.tr.step (.begin level) = some ⟨c.eng.begin level, c.tr.hist⟩ := rfl
  change c.stepOp (.begin level) = _
  unfold Catalog.stepOp
  refine if_pos ?_
  intro t hTxn
  cases hTxn

/- A row operation does not commit its transaction. -/
theorem Engine.Effect.alive_of_actor
    {e e' : Engine}
    {op : Op}
    {t : TxnId}
    (hEffect : Effect e e' op)
    (hOp : op.actor? = some t) :
    e'.Running t ∨ e'.state t = .aborted := by
  cases hEffect with
  | begin level _ => cases hOp
  | quiet _ u x hActor hQuiet =>
    obtain rfl := some.inj (hActor.symm.trans hOp)
    exact Or.inl hQuiet.state
  | change _ u d old hChange _ hOutcome =>
    have hTxn := Op.txn?_of_change hChange
    rw [Op.txn?_of_actor hOp] at hTxn
    cases hTxn
    cases hOutcome with
    | done hDone => exact Or.inl (Or.inl hDone.state)
    | rejected hRejected _ => exact Or.inl (Or.inr hRejected.state)
    | aborted e₁ _ hAbort => exact Or.inr (state_of_abort hAbort)
  | commit u e₁ _ _ => cases hOp
  | abort u _ _ => cases hOp
  | collect _ => cases hOp

/- Is the command a LOAD? -/
def CmdPhase.loads : CmdPhase → Bool
| .loading _ => true
| .thrown loads _ => loads
| _ => false

namespace ClientHandler

variable {h h' : ClientHandler} {act : SessionAct} {t : TxnId}

------------
-- Orderly Sessions
------------

/- Does a step begin a transaction? -/
def begins (h : ClientHandler) :
    SessionAct → Bool
| .recv .load => !h.explicitTxnAborted && h.current.isNone
| .analysed =>
  match h.phase with
  | .analysing .statement _ =>
    !h.explicitTxnAborted && h.current.isNone
  | _ => false
| .complete =>
  match h.phase with
  | .executing .txnBegin _ _ => true
  | _ => false
| _ => false

/- The handlers see an explicit transaction, also if the
  command is a LOAD or if the statement has aborted it. -/
def Noticed (h : ClientHandler) : Prop :=
  ∀ t, h.txnId = some t → h.txnMode t = true →
    h.phase.loads = true ∨ ¬ h.eng.Running t →
      h.explicitTxnOpen = true

/- A careful session whose rows are written as the manager
  allows it. LOAD, which takes no locks, places no record. -/
def Orderly (h : ClientHandler) (act : SessionAct) : Prop :=
  h.Careful act ∧
    (h.begins act = true →
      h.cat.Allows (.op (.begin h.level))) ∧
    match act with
    | .other stmt => h.cat.Allows stmt
    | .row op => h.cat.Allows (.op op)
    | .ddl ddl => h.cat.Allows (.ddl ddl)
    | .load _ fmt file order =>
      (∃ err, fmt.parseFile file = .error err) ∨ order = []
    | .throw => h.Noticed
    | _ => True

------------
-- Steps Of The Engine
------------

theorem ctx_of_statementTxn (hTxn : h.statementTxn = some t) :
    h.phase.ctx = some t := by
  unfold statementTxn at hTxn
  split at hTxn
  · rename_i raw ctx hPhase
    rw [hPhase]
    exact hTxn
  · cases hTxn

variable {loads : Bool} {fmt : LoadFormat} {file : List UInt8} {order : List (RmRecord × Rid)}

/- A file without records changes no row. -/
theorem load_cases
    {tab : TabName}
    (hEmpty : (∃ err, fmt.parseFile file = .error err) ∨ order = [])
    (hRun : h.load t loads tab fmt file order = some h') :
    h' = h ∨ h' = { h with phase := .thrown loads t } := by
  unfold load at hRun
  split at hRun
  · cases hRun
  · cases hRun
  · rename_i err e _ hLoad
    have hSame : e = h.eng := by
      unfold Engine.loadTable at hLoad
      split at hLoad
      · cases hLoad
      · split at hLoad
        · cases hLoad
          rfl
        · rename_i records hParse
          rcases hEmpty with ⟨err, hErr⟩ | rfl
          · rw [hErr] at hParse
            cases hParse
          · split at hLoad
            · cases hLoad
              rfl
            · cases hLoad
    subst hSame
    simp only at hRun
    split at hRun
    · cases hRun
      exact Or.inr rfl
    · cases hRun
      exact Or.inl rfl

------------
-- The Invariant
------------

/- A session that waits for the end of a failed transaction. -/
def Halted (h : ClientHandler) : Prop :=
  h.txnId = none ∧
    match h.phase with
    | .idle => True
    | .analysing _ _ => True
    | .executing query _ ctx =>
      query.sessionOnly = true ∧ ctx = none
    | .closed => True
    | _ => False

/- No statement runs in a halted session. -/
theorem Halted.not_runs
    (hHalted : h.Halted)
    (hRuns : h.Runs t) :
    False := by
  have hPhase := hHalted.2
  rcases hRuns with hLoads | ⟨raw, hExecutes⟩
  · rw [hLoads] at hPhase
    exact hPhase
  · rw [hExecutes] at hPhase
    cases hPhase.1

structure Ready (h : ClientHandler) : Prop where
  sound : h.cat.Sound
  created : ∀ t, h.txnId = some t → t ∈ h.created
  -- nothing but the session itself commits its transaction
  alive : ∀ t, h.txnId = some t → h.eng.Running t ∨ h.eng.state t = .aborted
  halted : h.explicitTxnAborted = true → h.Halted

variable {c : Catalog} {ctx : Option TxnId} {query : Query} {raw : Bool}

namespace Ready

theorem connect
    {cat : Catalog}
    (hSound : cat.Sound) :
    (ClientHandler.connect cat).Ready := by
  refine ⟨hSound, ?_, ?_, ?_⟩
  · intro t hT
    cases hT
  · intro t hT
    cases hT
  · intro hFlag
    cases hFlag

/- The session has no transaction. -/
theorem forget
    (hSound : c.Sound)
    (hHalted : { h with cat := c, txnId := none }.Halted) :
    Ready { h with cat := c, txnId := none } := by
  refine ⟨hSound, ?_, ?_, fun _ => hHalted⟩
  · intro t hT
    cases hT
  · intro t hT
    cases hT

theorem endTxn
    {op : TxnId → Op}
    (hSound : h.cat.Sound)
    (hAllows : ∀ t, h.cat.Allows (.op (op t)))
    (hRun : h.endTxn ctx op = some h') :
    h'.Ready := by
  rcases endTxn_cases hRun with ⟨c, rfl, ⟨rfl, -⟩ | ⟨t, -, -, hStep⟩⟩
  · exact forget (h := { h with phase := .idle }) hSound ⟨rfl, trivial⟩
  · exact forget (h := { h with phase := .idle }) (hSound.step (hAllows t) hStep) ⟨rfl, trivial⟩

theorem abort
    (hSound : h.cat.Sound)
    (hRun : h.abortActiveTransaction ctx = some h') :
    h'.Ready := by
  have hAllows : ∀ t, h.cat.Allows (.op (.abort t)) := fun _ => trivial
  exact endTxn hSound hAllows hRun

theorem handle
    (hSound : h.cat.Sound)
    (hRun : h.handle loads ctx = some h') :
    h'.Ready := by
  refine abort ?_ hRun
  exact hSound

variable (hReady : h.Ready)
include hReady

theorem finishImplicit (hRun : h.finishImplicitTransaction t = some h') :
    h'.Ready := by
  rcases finishImplicit_cases hRun with ⟨-, rfl⟩ | ⟨c, hStep, rfl⟩
  · refine ⟨hReady.sound, hReady.created, hReady.alive, ?_⟩
    intro hFlag
    exact ⟨(hReady.halted hFlag).1, trivial⟩
  · have hAllows : h.cat.Allows (.op (.commit t)) := trivial
    exact forget (h := { h with phase := .idle }) (hReady.sound.step hAllows hStep) ⟨rfl, trivial⟩

/- A new transaction of a session that is not halted. -/
theorem beginTxn
    (hAllows : h.cat.Allows (.op (.begin h.level)))
    (explicit : Bool)
    (phase : CmdPhase)
    (hFlag : h.explicitTxnAborted = false) :
    Ready { h.beginTxn explicit with phase := phase } := by
  have hStep := h.cat.step_begin h.level
  refine ⟨hReady.sound.step hAllows hStep, ?_, ?_, ?_⟩
  · intro t hT
    cases hT
    exact List.mem_cons_self
  · intro t hT
    cases hT
    refine Or.inl (Or.inl ?_)
    exact (Engine.begins_begin h.eng h.level).state
  · intro hBad
    cases hFlag.symm.trans hBad

theorem ensure
    (hAllows : h.current.isNone = true → h.cat.Allows (.op (.begin h.level)))
    (phase : CmdPhase)
    (hFlag : h.explicitTxnAborted = false) :
    Ready { h.ensureStatementTransaction.1 with
      phase := phase } := by
  unfold ensureStatementTransaction
  cases hCurrent : h.current with
  | none => exact hReady.beginTxn (hAllows (by rw [hCurrent]; rfl)) false phase hFlag
  | some t =>
    refine ⟨hReady.sound, hReady.created, hReady.alive, ?_⟩
    intro hBad
    cases hFlag.symm.trans hBad

/- A step of the engine keeps the session's transaction. -/
theorem withCat (hSound : c.Sound)
    (hAlive : ∀ t, h.txnId = some t → c.eng.Running t ∨
      c.eng.state t = .aborted) :
    Ready { h with cat := c } := ⟨hSound, hReady.created, hAlive, hReady.halted⟩

theorem ddl
    {ddl : Ddl}
    (hAllows : h.cat.Allows (.ddl ddl))
    (hStep : h.cat.step (.ddl ddl) = some c) :
    Ready { h with cat := c } := by
  refine hReady.withCat (hReady.sound.step hAllows hStep) ?_
  intro t hT
  have hStays := Catalog.stays_of_ddl hStep
  rw [hStays.running_iff, hStays.state]
  exact hReady.alive t hT

/- Another session does not end this one's transaction. -/
theorem other
    {stmt : Stmt}
    (hTidy : h.Tidy)
    (hAllows : h.cat.Allows stmt)
    (hOther : ∀ op, stmt = .op op → ∀ t ∈ h.created, op.txn? ≠ some t)
    (hStep : h.cat.step stmt = some c) :
    Ready { h with cat := c } := by
  cases stmt with
  | op op =>
    refine hReady.withCat (hReady.sound.step hAllows hStep) ?_
    intro t hT
    have hMem := hReady.created t hT
    have hEffect := hTidy.books.numbered.cases (Catalog.eng_of_op hStep)
    have hOld : t ≠ h.eng.nextTxnId := ne_of_lt (hTidy.created t hMem)
    have hSame := hEffect.txn_of_ne (hOther op rfl t hMem) (Or.inr hOld)
    have hAlive := hReady.alive t hT
    unfold Engine.Running Engine.state at hAlive ⊢
    rw [hSame]
    exact hAlive
  | ddl ddl => exact hReady.ddl hAllows hStep

theorem row
    {op : Op}
    (hTidy : h.Tidy)
    (hAllows : h.cat.Allows (.op op))
    (hTxn : h.statementTxn = some t)
    (hActor : op.actor? = some t)
    (hStep : h.cat.step (.op op) = some c) :
    Ready { h with cat := c } := by
  refine hReady.withCat (hReady.sound.step hAllows hStep) ?_
  intro u hU
  have hEffect := hTidy.books.numbered.cases (Catalog.eng_of_op hStep)
  have hMine : h.txnId = some t := hTidy.ctx t (ctx_of_statementTxn hTxn)
  obtain rfl := some.inj (hMine.symm.trans hU)
  exact hEffect.alive_of_actor hActor

/- A command comes in. A halted session does not load. -/
omit hReady in
theorem recv
    (cmd : Command)
    (hReady : h.Ready)
    (hOrderly : h.Orderly (.recv cmd)) :
    (h.recv cmd).Ready := by
  cases cmd with
  | setOutputFileOff | unparsed => exact hReady
  | load =>
    unfold ClientHandler.recv
    simp only
    split
    · exact hReady
    · rename_i hFlag
      have hOff := Bool.eq_false_iff.mpr hFlag
      refine hReady.ensure ?_ _ hOff
      intro hNone
      refine hOrderly.2.1 ?_
      simp [begins, hOff, hNone]
  | sql query raw =>
    refine ⟨hReady.sound, hReady.created, hReady.alive, ?_⟩
    intro hFlag
    exact ⟨(hReady.halted hFlag).1, trivial⟩

/- Only session commands go on in a halted session. -/
theorem analysed (hPhase : h.phase = .analysing query raw)
    (hOrderly : h.Orderly .analysed) : (h.analysed query raw).Ready := by
  have hPhaseTo : ∀ phase, (h.explicitTxnAborted = true → { h with phase := phase }.Halted) →
        Ready { h with phase := phase } := by
    intro phase hHalted
    exact ⟨hReady.sound, hReady.created, hReady.alive, hHalted⟩
  unfold ClientHandler.analysed
  split
  · refine ⟨hReady.sound, hReady.created, hReady.alive, ?_⟩
    intro hBad
    cases hBad
  · split
    · refine hPhaseTo .idle ?_
      intro hFlag
      exact ⟨(hReady.halted hFlag).1, trivial⟩
    · rename_i hGo
      have hOnly : h.explicitTxnAborted = true → query.sessionOnly = true := by
        intro hFlag
        by_contra hNot
        exact hGo ⟨hFlag, hNot⟩
      split
      · rename_i hStatement
        subst hStatement
        have hOff : h.explicitTxnAborted = false := by
          cases hFlag : h.explicitTxnAborted with
          | false => rfl
          | true => exact absurd (hOnly hFlag) (by decide)
        refine hReady.ensure ?_ _ hOff
        intro hNone
        refine hOrderly.2.1 ?_
        simp [begins, hPhase, hOff, hNone]
      · split
        · refine hPhaseTo _ ?_
          intro hFlag
          cases query <;> simp_all [Query.ends, Query.sessionOnly]
        · refine hPhaseTo _ ?_
          intro hFlag
          exact ⟨(hReady.halted hFlag).1, hOnly hFlag, rfl⟩

/- The flags do not matter without a transaction. -/
theorem setFlags
    (hKeeps : query = .txnBegin → h.explicitTxnAborted = false) :
    (h.setFlags query raw).Ready := by
  unfold ClientHandler.setFlags
  split
  · rename_i hBegin
    refine ⟨hReady.sound, hReady.created, hReady.alive, ?_⟩
    intro hFlag
    have hOff := hKeeps hBegin.2
    cases hOff.symm.trans hFlag
  · split
    · refine ⟨hReady.sound, hReady.created, hReady.alive, ?_⟩
      intro hBad
      cases hBad
    · exact hReady

theorem complete
    (hPhase : h.phase = .executing query raw ctx)
    (hOrderly : h.Orderly .complete)
    (hRun : h.complete query raw ctx = some h') :
    h'.Ready := by
  have hIdle : Ready { h with phase := .idle } := by
    refine ⟨hReady.sound, hReady.created, hReady.alive, ?_⟩
    intro hFlag
    exact ⟨(hReady.halted hFlag).1, trivial⟩
  have hEnd : ∀ op : TxnId → Op, (∀ t, h.cat.Allows (.op (op t))) → query ≠ .txnBegin →
      (h.endTxn ctx op).map (fun h' => h'.setFlags query raw) = some h' → h'.Ready := by
    intro op hAllows hNe hMap
    rcases map_eq_some_iff.mp hMap with ⟨h₁, hRun₁, rfl⟩
    have hReady₁ := endTxn hReady.sound hAllows hRun₁
    exact hReady₁.setFlags (fun hBad => absurd hBad hNe)
  cases query with
  | txnBegin =>
    cases hRun
    have hOff : h.explicitTxnAborted = false := by
      cases hFlag : h.explicitTxnAborted with
      | false => rfl
      | true =>
        have hHalted := (hReady.halted hFlag).2
        rw [hPhase] at hHalted
        cases hHalted.1
    have hAllows := hOrderly.2.1 (by simp [begins, hPhase])
    exact (hReady.beginTxn hAllows true .idle hOff).setFlags (fun _ => hOff)
  | txnCommit => exact hEnd .commit (fun _ => trivial) (by simp) hRun
  | txnAbort => exact hEnd .abort (fun _ => trivial) (by simp) hRun
  | staticCheckpoint | setKnob =>
    cases hRun
    exact hIdle
  | setIsolation level =>
    cases hRun
    exact ⟨hIdle.sound, hIdle.created, hIdle.alive, hIdle.halted⟩
  | statement =>
    cases ctx with
    | none => cases hRun
    | some t =>
      unfold ClientHandler.complete at hRun
      simp only at hRun
      split at hRun
      · exact hReady.finishImplicit hRun
      · cases hRun

/- The loader throws or has nothing to place. -/
theorem load
    {tab : TabName}
    (hBusy : ¬ h.Halted)
    (hOrderly : h.Orderly (.load tab fmt file order))
    (hRun : h.load t loads tab fmt file order = some h') :
    h'.Ready := by
  rcases load_cases hOrderly.2.2 hRun with rfl | rfl
  · exact hReady
  · refine ⟨hReady.sound, hReady.created, hReady.alive, ?_⟩
    intro hFlag
    exact absurd (hReady.halted hFlag) hBusy

/- One step of an orderly session or of another one. -/
theorem step
    (hTidy : h.Tidy)
    (hOrderly : h.Orderly act)
    (hStep : h.step act = some h') :
    h'.Ready := by
  cases step_cases hStep with
  | other stmt c hOther hCat => exact hReady.other hTidy hOrderly.2.2 hOther hCat
  | row op t c hTxn hActor hCat => exact hReady.row hTidy hOrderly.2.2 hTxn hActor hCat
  | ddl ddl t c hTxn hCat => exact hReady.ddl hOrderly.2.2 hCat
  | recv cmd hIdle => exact hReady.recv cmd hOrderly
  | analysed query raw hPhase => exact hReady.analysed hPhase hOrderly
  | load tab fmt file order t loads _ hRuns hRun =>
    exact hReady.load (fun hBad => hBad.not_runs hRuns) hOrderly hRun
  | throw loads _ hRun => exact handle hReady.sound hRun
  | complete query raw ctx _ hPhase hRun => exact hReady.complete hPhase hOrderly hRun
  | loaded t _ hPhase hRun => exact hReady.finishImplicit hRun
  | completeThrows t _ hRuns hRun => exact abort hReady.sound hRun
  | disconnect h₁ hIdle hRun =>
    have hReady₁ := abort hReady.sound hRun
    rcases endTxn_cases hRun with ⟨c, rfl, -⟩
    exact forget (h := { h with phase := .closed }) hReady₁.sound ⟨rfl, trivial⟩

end Ready

------------
-- Rolled Back
------------

/- Nothing of a transaction is left. Rows that no other one is
  changing have the values of the last commits, and it is not
  one of these. -/
structure Erased (t : TxnId) (c : Catalog) : Prop where
  state : c.eng.state t = .aborted
  locks : ∀ x, c.eng.locks x ≠ some t ∧ t ∉ c.eng.sharedLocks x
  entries : ∀ x, ¬ c.eng.Owns t x
  unstamped : c.tr.hist.stamps t = none
  rows : ∀ x, (∀ u, ¬ c.eng.Owns u x ∧ ¬ c.eng.PlainOwns u x) → c.eng.newest x =
        c.tr.hist.valueAt c.base c.eng.lastCommitTs x

/- A transaction is rolled back if it has not been rolled back
  before. -/
structure RolledBack
    (t : TxnId)
    (c c' : Catalog) :
    Prop extends Erased t c' where
  aborts : c.eng.Running t → Catalog.Aborts t c c'
  ended : ¬ c.eng.Running t → c' = c

theorem erased_of_aborted
    (hSound : c.Sound)
    (hBooks : c.eng.Books)
    (hState : c.eng.state t = .aborted) :
    Erased t c := by
  have hEnded : ¬ c.eng.Running t := Consistent.not_running_of_state hState (Or.inr rfl)
  rcases hSound.agrees.1 with ⟨floor, hInv⟩
  refine ⟨hState, (hBooks.ended hEnded).1, ?_, ?_, ?_⟩
  · intro x hOwns
    exact hEnded ((hInv.rows x).owner t hOwns).1
  · cases hStamp : c.tr.hist.stamps t with
    | none => rfl
    | some ts =>
      have hCommitted := (hInv.hist.stamped t ts hStamp).1
      rw [hState] at hCommitted
      cases hCommitted
  · intro x hFree
    have hSettled := (hInv.rows x).settled (fun u => (hFree u).1)
    rw [hInv.pre_eq (fun u => (hFree u).2) (fun u => (hFree u).1)] at hSettled
    exact Consistent.newest_of_settled hSettled hInv.floorLast

/- A command of the session, not of another one. -/
def SessionAct.own : SessionAct → Bool
| .other _ => false
| _ => true

/- The closing commit, abort or rollback. -/
def Closes (h : ClientHandler) (act : SessionAct) : Prop :=
  act = .analysed ∧
    ∃ query, h.phase = .analysing query true ∧ query.ends = true

theorem Halted.ctx_eq (hHalted : h.Halted) : h.phase.ctx = none := by
  have hNone := hHalted.2
  cases hPhase : h.phase with
  | executing query raw ctx =>
    rw [hPhase] at hNone
    exact hNone.2
  | loading t | thrown loads t =>
    rw [hPhase] at hNone
    cases hNone
  | _ => rfl

theorem analysed_of_aborted (hFlag : h.explicitTxnAborted = true)
    (hPhase : h.phase = .analysing query raw) :
    (SessionAct.own .analysed = true → (h.analysed query raw).cat = h.cat) ∧
      ((h.analysed query raw).explicitTxnAborted = true ∨
        h.Closes .analysed) := by
  unfold ClientHandler.analysed
  split
  · rename_i hEnd
    have hRaw : raw = true := hEnd.2.1
    subst hRaw
    exact ⟨fun _ => rfl, Or.inr ⟨rfl, query, hPhase, hEnd.2.2⟩⟩
  · split
    · exact ⟨fun _ => rfl, Or.inl hFlag⟩
    · rename_i hGo
      split
      · rename_i hStatement
        exact absurd ⟨hFlag, by rw [hStatement]; decide⟩ hGo
      · split
        · exact ⟨fun _ => rfl, Or.inl hFlag⟩
        · exact ⟨fun _ => rfl, Or.inl hFlag⟩

/- Without a context the handlers do nothing. -/
theorem handle_none
    (hFlag : h.explicitTxnAborted = true)
    (hRun : h.handle loads none = some h') :
    (SessionAct.own .throw = true → h'.cat = h.cat) ∧
      (h'.explicitTxnAborted = true ∨ h.Closes .throw) := by
  cases hRun
  refine ⟨fun _ => rfl, Or.inl ?_⟩
  simp [hFlag]

/- A halted session changes nothing and stays halted. -/
theorem Halted.step
    (hHalted : h.Halted)
    (hFlag : h.explicitTxnAborted = true)
    (hStep : h.step act = some h') :
    (act.own = true → h'.cat = h.cat) ∧
      (h'.explicitTxnAborted = true ∨ h.Closes act) := by
  cases step_cases hStep with
  | other stmt c hOther hStep => exact ⟨fun hBad => absurd hBad Bool.false_ne_true, Or.inl hFlag⟩
  | recv cmd hIdle =>
    cases cmd with
    | setOutputFileOff | unparsed | sql query raw => exact ⟨fun _ => rfl, Or.inl hFlag⟩
    | load =>
      unfold recv
      simp only [hFlag, if_true]
      exact ⟨fun _ => trivial, Or.inl trivial⟩
  | analysed query raw hPhase => exact analysed_of_aborted hFlag hPhase
  | row op t c hTxn hActor hStep | ddl ddl t c hTxn hStep =>
    cases hHalted.ctx_eq.symm.trans (ctx_of_statementTxn hTxn)
  | load tab fmt file order t loads _ hRuns hRun => exact (hHalted.not_runs hRuns).elim
  | throw loads _ hRun =>
    rw [hHalted.ctx_eq] at hRun
    exact handle_none hFlag hRun
  | complete query raw ctx _ hPhase hRun =>
    have hOnly := hHalted.2
    rw [hPhase] at hOnly
    cases query with
    | setKnob | setIsolation level =>
      cases hRun
      exact ⟨fun _ => rfl, Or.inl hFlag⟩
    | _ => cases hOnly.1
  | loaded t _ hPhase hRun => exact (hHalted.not_runs (Or.inl hPhase)).elim
  | completeThrows t _ hRuns hRun => exact (hHalted.not_runs hRuns).elim
  | disconnect h₁ hIdle hRun =>
    have hNone : h.getTransaction = none := by
      unfold getTransaction
      rw [hHalted.1]
      rfl
    rw [hNone] at hRun
    cases hRun
    exact ⟨fun _ => rfl, Or.inl hFlag⟩

------------
-- Failed Statements
------------

/- An exception goes to the handlers of the command. -/
theorem step_throw (hBusy : h.phase ≠ .idle)
    (hOpen : h.phase ≠ .closed) :
    h.step .throw = h.handle (h.phase.loads) h.phase.ctx := by
  unfold step
  cases hPhase : h.phase with
  | idle => exact absurd hPhase hBusy
  | closed => exact absurd hPhase hOpen
  | analysing query raw => rfl
  | executing query raw ctx => rfl
  | loading t => rfl
  | thrown loads t => rfl

/- The handlers abort a transaction that is still active. -/
theorem exists_handle
    (hReady : h.Ready)
    (hTidy : h.Tidy)
    (hTxn : h.txnId = some t)
    (hCtx : h.eng.Running t → ctx = some t)
    (hOnly : ∀ u, ctx = some u → u = t)
    (hSeen : h.explicitTxnOpen = true ∨ loads = false ∧ h.txnMode t = true ∧
      h.eng.Running t) :
    ∃ h', h.handle loads ctx = some h' ∧ RolledBack t h.cat h'.cat ∧
      h'.phase = .idle ∧
      h'.explicitTxnAborted = true := by
  have hFlag : (h.explicitTxnAborted || (h.explicitTxnOpen ||
        (!loads && h.isExplicitActiveTransaction ctx))) =
      true := by
    rcases hSeen with hOpen | ⟨hLoads, hMode, hRunning⟩
    · simp [hOpen]
    · simp [hLoads, isExplicitActiveTransaction, hMode, hRunning, hCtx hRunning]
  have hHandle : h.handle loads ctx =
      { h with explicitTxnAborted := true
        }.abortActiveTransaction ctx := by
    unfold handle
    simp only [hFlag]
  rw [hHandle]
  unfold abortActiveTransaction endTxn
  by_cases hRunning : h.eng.Running t
  · rcases hReady.sound.exists_abort hRunning with ⟨c, hStep, hAborts⟩
    have hAllows : h.cat.Allows (.op (.abort t)) := trivial
    refine ⟨{ h with
      cat := c,
      explicitTxnAborted := true,
      txnId := none,
      phase := .idle }, ?_, ?_, rfl, rfl⟩
    · rw [hCtx hRunning]
      simp only [if_pos hRunning, hStep]
    · exact ⟨erased_of_aborted (hReady.sound.step hAllows hStep)
        (Catalog.follows hTidy.books hStep).books hAborts.state,
        fun _ => hAborts, fun hNot => absurd hRunning hNot⟩
  · refine ⟨{ h with
      explicitTxnAborted := true,
      txnId := none,
      phase := .idle }, ?_, ?_, rfl, rfl⟩
    · cases ctx with
      | none => rfl
      | some u =>
        obtain rfl := hOnly u rfl
        simp only [if_neg hRunning]
    · exact ⟨erased_of_aborted hReady.sound hTidy.books
        ((hReady.alive t hTxn).resolve_left hRunning),
        fun hBad => absurd hBad hRunning, fun _ => rfl⟩

/- A session after an error, until it is closed. -/
theorem halted_of_run
    {acts : List SessionAct}
    (hInv : h.Tidy ∧ h.Ready)
    (hFlag : h.explicitTxnAborted = true)
    (hOrderly : Guarded step Orderly h acts)
    (hGoes : Guarded step (fun h act => ¬ h.Closes act) h acts)
    (hRun : h.run acts = some h') :
    h'.explicitTxnAborted = true ∧ h'.Halted := by
  have hEnd := invariant_of_guarded_run (fun h : ClientHandler => (h.Tidy ∧ h.Ready) ∧
      h.explicitTxnAborted = true) (fun h₁ _ _ hInv hBoth hStep => by
      refine ⟨⟨hInv.1.1.step hBoth.1.1 hStep, hInv.1.2.step hInv.1.1 hBoth.1 hStep⟩, ?_⟩
      have hStays := ((hInv.1.2.halted hInv.2).step hInv.2 hStep).2
      exact hStays.resolve_right hBoth.2) ⟨hInv, hFlag⟩ (hOrderly.and hGoes) hRun
  exact ⟨hEnd.2, hEnd.1.2.halted hEnd.2⟩

/- The second statement of a transaction is running. -/
def secondStatement : List SessionAct :=
  [.recv (.sql .txnBegin true), .analysed, .complete,
    .recv (.sql .statement false), .analysed,
    .row (.insertRow 0 Sys.firstRow [7] []), .complete,
    .recv (.sql .statement false), .analysed]

end ClientHandler

end Rmdb
