import Rmdb.Mvcc.Books
import Rmdb.System.Catalog

/-
  This file models `client_handler`: the commands of one
  session, beside the transactions of all other sessions.

  The session keeps its transaction in three places: in
  `txn_id`, in the context of the command, which is empty until
  the command has been analysed, and in two flags for explicit
  transactions.  The handlers of exceptions only abort what the
  context holds.

  Key definitions include:
    * `ClientHandler`
    * `ClientHandler.ensureStatementTransaction`
    * `ClientHandler.abortActiveTransaction`
    * `ClientHandler.step`
-/

namespace Rmdb

------------
-- Commands
------------

/- What the parser makes of a command. -/
inductive Query where
  | txnBegin
  | txnCommit
  -- abort and rollback
  | txnAbort
  | staticCheckpoint
  | setKnob
  | setIsolation (level : IsolationLevel)
  -- everything that needs a transaction
  | statement
deriving DecidableEq, Repr

namespace Query

/- `is_session_only_query`. -/
def sessionOnly : Query → Bool
| .setKnob => true
| .setIsolation _ => true
| _ => false

/- `is_transaction_end_query`. -/
def ends : Query → Bool
| .txnCommit => true
| .txnAbort => true
| _ => false

end Query

/- A command. A query may be recognised in the raw text, which
  counts for begin, commit, abort and rollback. -/
inductive Command where
  | setOutputFileOff
  | load
  -- a syntax error or an empty command
  | unparsed
  | sql (query : Query) (raw : Bool)
deriving DecidableEq, Repr

/- How far the current command is, with its context. -/
inductive CmdPhase where
  | idle
  | analysing (query : Query) (raw : Bool)
  | executing (query : Query) (raw : Bool) (ctx : Option TxnId)
  | loading (ctx : TxnId)
  -- `load_table` has thrown
  | thrown (loads : Bool) (ctx : TxnId)
  | closed
deriving DecidableEq, Repr

/- The transaction of the context. -/
def CmdPhase.ctx : CmdPhase → Option TxnId
| .executing _ _ ctx => ctx
| .loading ctx => some ctx
| .thrown _ ctx => some ctx
| _ => none

/- The database and one session. Explicit transactions are
  tracked in `txn_map`. The transactions that the session has
  begun are kept beside. -/
structure ClientHandler where
  cat : Catalog
  txnMode : TxnId → Bool
  created : List TxnId
  txnId : Option TxnId
  level : IsolationLevel
  explicitTxnOpen : Bool
  explicitTxnAborted : Bool
  phase : CmdPhase

namespace ClientHandler

abbrev eng (h : ClientHandler) : Engine :=
  h.cat.eng

/- A session that has just connected. -/
def connect (cat : Catalog) : ClientHandler :=
  ⟨cat, fun _ => false, [], none, .readCommitted, false, false,
    .idle⟩

/- `get_transaction` of `txn_id`. -/
def getTransaction (h : ClientHandler) : Option TxnId :=
  h.txnId.filter h.txnMode

/- `begin`, tracked if it is explicit. -/
def beginTxn (h : ClientHandler) (explicit : Bool) : ClientHandler :=
  let t : TxnId := h.eng.nextTxnId
  { h with
    cat := { h.cat with
      tr := ⟨h.eng.begin h.level, h.cat.tr.hist⟩ },
    txnMode := Function.update h.txnMode t explicit,
    created := t :: h.created,
    txnId := some t }

/- The transaction that a statement can go on with. -/
def current (h : ClientHandler) : Option TxnId :=
  h.getTransaction.filter (fun t => h.eng.Running t)

def ensureStatementTransaction (h : ClientHandler) : ClientHandler × TxnId :=
  match h.current with
  | some t => (h, t)
  | none => (h.beginTxn false, h.eng.nextTxnId)

/- End the transaction of the context, if it is active, and
  forget it. An abort may throw itself. -/
def endTxn
    (h : ClientHandler)
    (ctx : Option TxnId)
    (op : TxnId → Op) :
    Option ClientHandler :=
  match ctx with
  | none => some { h with txnId := none, phase := .idle }
  | some t =>
    if h.eng.Running t then
      match h.cat.step (.op (op t)) with
      | none => none
      | some c =>
        some { h with cat := c, txnId := none, phase := .idle }
    else
      some { h with txnId := none, phase := .idle }

/- The abort in the handlers. -/
def abortActiveTransaction
    (h : ClientHandler)
    (ctx : Option TxnId) :
    Option ClientHandler :=
  h.endTxn ctx .abort

def isExplicitActiveTransaction
    (h : ClientHandler)
    (ctx : Option TxnId) :
    Bool :=
  (ctx.or h.getTransaction).any (fun t =>
    h.txnMode t && decide (h.eng.Running t))

/- The handlers of an exception, those of LOAD or the others. -/
def handle
    (h : ClientHandler)
    (loads : Bool)
    (ctx : Option TxnId) :
    Option ClientHandler :=
  let seen := h.explicitTxnOpen ||
    (!loads && h.isExplicitActiveTransaction ctx)
  { h with
    explicitTxnAborted := h.explicitTxnAborted || seen
  }.abortActiveTransaction ctx

/- `FinishImplicitTransaction` after a statement. -/
def finishImplicitTransaction
    (h : ClientHandler)
    (t : TxnId) :
    Option ClientHandler :=
  if h.txnMode t then
    some { h with phase := .idle }
  else
    match h.cat.step (.op (.commit t)) with
    | none => none
    | some c => some { h with cat := c, txnId := none, phase := .idle }

------------
-- Steps
------------

/- A command comes in. -/
def recv (h : ClientHandler) :
    Command → ClientHandler
| .setOutputFileOff => h
| .unparsed => h
| .load =>
  if h.explicitTxnAborted then
    h
  else
    let (h', t) := h.ensureStatementTransaction
    { h' with phase := .loading t }
| .sql query raw => { h with phase := .analysing query raw }

/- The query has been analysed. -/
def analysed
    (h : ClientHandler)
    (query : Query)
    (raw : Bool) :
    ClientHandler :=
  if h.explicitTxnAborted ∧ raw ∧ query.ends then
    { h with
      explicitTxnAborted := false,
      explicitTxnOpen := false,
      phase := .idle }
  else if h.explicitTxnAborted ∧ ¬ query.sessionOnly then
    { h with phase := .idle }
  else if query = .statement then
    let (h', t) := h.ensureStatementTransaction
    { h' with phase := .executing query raw (some t) }
  else if query.ends then
    { h with phase := .executing query raw h.getTransaction }
  else
    { h with phase := .executing query raw none }

/- The flags after a begin or an end that was recognised. -/
def setFlags
    (h : ClientHandler)
    (query : Query)
    (raw : Bool) :
    ClientHandler :=
  if raw ∧ query = .txnBegin then
    { h with explicitTxnOpen := h.txnId.isSome }
  else if raw ∧ query.ends then
    { h with explicitTxnOpen := false, explicitTxnAborted := false }
  else
    h

/- The query runs to its end. -/
def complete
    (h : ClientHandler)
    (query : Query)
    (raw : Bool)
    (ctx : Option TxnId) :
    Option ClientHandler :=
  match query with
  | .txnBegin =>
    some ({ h.beginTxn true with phase := .idle }.setFlags query
      raw)
  | .txnCommit =>
    (h.endTxn ctx .commit).map (fun h' => h'.setFlags query raw)
  | .txnAbort =>
    (h.endTxn ctx .abort).map (fun h' => h'.setFlags query raw)
  | .staticCheckpoint => some { h with phase := .idle }
  | .setKnob => some { h with phase := .idle }
  | .setIsolation level =>
    some { h with level := level, phase := .idle }
  | .statement =>
    match ctx with
    | none => none
    | some t =>
      if h.eng.state t = .growing then
        h.finishImplicitTransaction t
      else
        none

/- The transaction whose rows the current statement changes. -/
def statementTxn (h : ClientHandler) : Option TxnId :=
  match h.phase with
  | .executing .statement _ ctx => ctx
  | _ => none

/- `AbortTransactionById` at the end of the session. -/
def disconnect (h : ClientHandler) : Option ClientHandler :=
  (h.abortActiveTransaction h.getTransaction).map (fun h' =>
    { h' with phase := .closed })

/- The steps of the session and of all others. -/
inductive SessionAct where
  | other (stmt : Stmt)
  | recv (cmd : Command)
  | analysed
  | row (op : Op)
  | ddl (ddl : Ddl)
  | load (tab : TabName) (fmt : LoadFormat) (file : List UInt8) (order : List (RmRecord × Rid))
  | throw
  | complete
  -- the commit of a statement's own transaction throws
  | completeThrows
  | disconnect

/- A step of the engine. -/
def withCat (h : ClientHandler) :
    Option Catalog → Option ClientHandler
| none => none
| some c => some { h with cat := c }

/- Rows of a file are loaded, or the loader throws. A number
  that cannot be read throws an exception of the standard
  library, which no handler catches: the server ends, and
  there is no later state. -/
def load
    (h : ClientHandler)
    (t : TxnId)
    (loads : Bool)
    (tab : TabName)
    (fmt : LoadFormat)
    (file : List UInt8)
    (order : List (RmRecord × Rid)) :
    Option ClientHandler :=
  match h.eng.loadTable t tab fmt file order with
  | none => none
  | some (some .badNumber, _) => none
  | some (err, e) =>
    let h' := { h with
      cat := { h.cat with tr := ⟨e, h.cat.tr.hist⟩ } }
    if err.isSome then
      some { h' with phase := .thrown loads t }
    else
      some h'

def step (h : ClientHandler) :
    SessionAct → Option ClientHandler
| .other stmt =>
  match stmt with
  | .op op =>
    if ∀ t ∈ h.created, op.txn? ≠ some t then
      h.withCat (h.cat.step stmt)
    else
      none
  | .ddl _ => h.withCat (h.cat.step stmt)
| .recv cmd =>
  if h.phase = .idle then some (h.recv cmd) else none
| .analysed =>
  match h.phase with
  | .analysing query raw => some (h.analysed query raw)
  | _ => none
| .row op =>
  if op.actor? = h.statementTxn ∧ h.statementTxn ≠ none then
    h.withCat (h.cat.step (.op op))
  else
    none
| .ddl ddl =>
  if h.statementTxn ≠ none then
    h.withCat (h.cat.step (.ddl ddl))
  else
    none
| .load tab fmt file order =>
  match h.phase with
  | .loading t => h.load t true tab fmt file order
  | .executing .statement _ (some t) =>
    h.load t false tab fmt file order
  | _ => none
| .throw =>
  match h.phase with
  | .analysing _ _ => h.handle false none
  | .executing _ _ ctx => h.handle false ctx
  | .loading t => h.handle true (some t)
  | .thrown loads t => h.handle loads (some t)
  | _ => none
| .complete =>
  match h.phase with
  | .executing query raw ctx => h.complete query raw ctx
  | .loading t =>
    if h.eng.state t = .growing then
      h.finishImplicitTransaction t
    else
      none
  | _ => none
| .completeThrows =>
  match h.phase with
  | .executing .statement _ (some t) =>
    if h.txnMode t then none
    else h.abortActiveTransaction (some t)
  | .loading t =>
    if h.txnMode t then none
    else h.abortActiveTransaction (some t)
  | _ => none
| .disconnect =>
  if h.phase = .idle then h.disconnect else none

def run
    (h : ClientHandler)
    (acts : List SessionAct) :
    Option ClientHandler :=
  StepSystem.run step h acts

end ClientHandler

end Rmdb
