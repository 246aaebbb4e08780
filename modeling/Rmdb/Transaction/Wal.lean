import Rmdb.Transaction.History

/-
  This file states the write-ahead discipline under which page
  LSNs and row locks make recovery right, as an abstract
  machine over rows, page LSNs, page images on disk, the log,
  the row locks and the status of each transaction.

  The machine forgets indexes, write sets and the way an abort
  undoes its writes: a doomed transaction may do anything to
  the rows it has logged.  Its steps keep three rules that the
  server does not enforce:
    * no transaction reads a row that an insert of another
      one has placed but not yet locked,
    * a change is logged only when every logged change of its
      page has been stamped,
    * a page is written back only when none of its changes is
      torn, that is applied but not stamped or stamped but not
      applied.

  Key definitions include:
    * `Wal.Status`
    * `Wal.State`
    * `Wal.Torn`
    * `Wal.Untainted`
    * `Wal.Step`
-/

namespace Rmdb

namespace Wal

/- How far a change of one row has come. -/
inductive Stage where
  -- an insert: the row is in the heap, without and with lock
  | placed
  | held
  -- an update or a delete: the row is locked and read
  | read
  | logged (lsn : Int)
  | stamped (lsn : Int)
  | applied (lsn : Int)
deriving DecidableEq, Repr

/- What a transaction is doing. -/
inductive Status where
  | fresh
  | idle
  | op (d : DataRecord) (st : Stage)
  -- failed, aborting or aborted
  | doomed
  -- committing, with its locks, and committed, without
  | sealed
  | done
deriving DecidableEq, Repr

/- The abstract machine. -/
@[ext] structure State where
  content : Loc → Option RmRecord
  pageLsn : PageId → Int
  disk : PageId → Page
  log : List LogRecord
  flushed : Nat
  status : TxnId → Status
  locks : Loc → Option TxnId

/- The LSN of the log record of a change, once it has one. -/
def Stage.lsn? : Stage → Option Int
| .placed => none
| .held => none
| .read => none
| .logged lsn => some lsn
| .stamped lsn => some lsn
| .applied lsn => some lsn

/- What the heap holds at a stage of a change. -/
def heapValue : DataRecord → Stage → Option RmRecord
| .insert _ rec, _ => some rec
| d, .applied _ => d.after
| d, _ => d.before

/- A change is torn when the heap and the page LSN disagree
  about it. -/
def Torn : DataRecord → Stage → Prop
| .insert _ _, _ => True
| _, .stamped _ => True
| _, _ => False

instance (d : DataRecord) (st : Stage) : Decidable (Torn d st) := by
  unfold Torn
  cases d <;> cases st <;> infer_instance

/- Statuses of transactions that hold their locks. -/
def Status.Live : Status → Prop
| .idle => True
| .op _ _ => True
| .sealed => True
| _ => False

/- The image of a page in the buffer pool. -/
def State.image (c : State) (P : PageId) : Page :=
  ⟨c.pageLsn P,
    fun slotNo => c.content ⟨P.tab, ⟨P.pageNo, slotNo⟩⟩⟩

namespace State

variable (c : State)

def setStatus (t : TxnId) (st : Status) : State :=
  { c with status := Function.update c.status t st }

def setContent (x : Loc) (v : Option RmRecord) : State :=
  { c with content := Function.update c.content x v }

def setLsn (P : PageId) (lsn : Int) : State :=
  { c with pageLsn := Function.update c.pageLsn P lsn }

def append (t : TxnId) (prevLsn : Int) (body : LogBody) : State :=
  { c with log := c.log ++ [⟨c.log.length, t, prevLsn, body⟩] }

def setLock (x : Loc) (owner : Option TxnId) : State :=
  { c with locks := Function.update c.locks x owner }

/- Release every lock of a transaction. -/
def dropLocks (t : TxnId) : State :=
  { c with
    locks := fun x =>
      if c.locks x = some t then none else c.locks x }

/- Can a transaction get the lock of a row? -/
def lockFree (t : TxnId) (x : Loc) : Prop :=
  c.locks x = none ∨ c.locks x = some t

@[simp] theorem setStatus_self (t : TxnId) :
    c.setStatus t (c.status t) = c := by
  simp [setStatus]

@[simp] theorem setContent_self (x : Loc) :
    c.setContent x (c.content x) = c := by
  simp [setContent]

@[simp] theorem setLock_self (x : Loc) : c.setLock x (c.locks x) = c := by
  simp [setLock]

end State

/- No doomed transaction has logged a change of the row. -/
def Untainted (c : State) (x : Loc) : Prop :=
  ∀ t, c.status t = .doomed → ¬ Log.ChangedBy c.log t x

/- A row identifier that the tables have room for. -/
abbrev Range := Loc → Prop

/- One step of the machine. -/
inductive Step (inRange : Range) : State → State → Prop where
  -- a transaction begins
  | begin (c t) :
      c.status t = .fresh → Step inRange c (c.setStatus t .idle)
  -- an insert puts its row into a free slot
  | place (c t x rec) :
      c.status t = .idle → inRange x → c.content x = none → Step inRange c
        ((c.setContent x (some rec)).setStatus t (.op (.insert x rec) .placed))
  -- the insert gets the row lock
  | acquire (c t x rec) :
      c.status t = .op (.insert x rec) .placed → c.lockFree t x → Step inRange c
        ((c.setLock x (some t)).setStatus t (.op (.insert x rec) .held))
  -- the insert is rejected before it is logged
  | unplace (c t x rec st v) :
      c.status t = .op (.insert x rec) st → st.lsn? = none → (Untainted c x → v = none) →
      Step inRange c ((c.setContent x v).setStatus t .doomed)
  -- a row is locked and passed over
  | lockRow (c t x) :
      c.status t = .idle → c.lockFree t x → Step inRange c (c.setLock x (some t))
  -- an update or a delete locks and reads its row
  | read (c t d) :
      c.status t = .idle → c.lockFree t d.loc → d.before.isSome → c.content d.loc = d.before →
      (∀ t' rec, c.status t' ≠ .op (.insert d.loc rec) .placed) → Step inRange c
        ((c.setLock d.loc (some t)).setStatus t (.op d .read))
  -- the change is logged
  | log (c t d st prevLsn) :
      c.status t = .op d st → st = .held ∨ st = .read → (∀ t' d' lsn,
        c.status t' = .op d' (.logged lsn) → d'.loc.page ≠ d.loc.page) → Step inRange c
        ((c.append t prevLsn (.data d)).setStatus t (.op d (.logged c.log.length)))
  -- the page of the change is stamped
  | stamp (c t d lsn) :
      c.status t = .op d (.logged lsn) → Step inRange c ((c.setLsn d.loc.page lsn).setStatus t
          (if d.before.isSome then
            .op d (.stamped lsn)
          else
            .idle))
  -- the heap is changed
  | apply (c t d lsn) :
      c.status t = .op d (.stamped lsn) → Step inRange c ((c.setContent d.loc d.after).setStatus t
          (if d.after.isSome then
            .op d (.applied lsn)
          else
            .idle))
  | finish (c t d lsn) :
      c.status t = .op d (.applied lsn) → Step inRange c (c.setStatus t .idle)
  -- a logged change is rejected
  | spoil (c t d st lsn v) :
      c.status t = .op d st → st = .stamped lsn ∨ st = .applied lsn → Step inRange c
        ((c.setContent d.loc v).setStatus t .doomed)
  | fail (c t) :
      c.status t = .idle → Step inRange c (c.setStatus t .doomed)
  -- an aborting transaction takes back a write
  | rollback (c t x v owner) :
      c.status t = .doomed → Log.ChangedBy c.log t x → owner = c.locks x ∨
        c.locks x = some t ∧ owner = none → Step inRange c ((c.setContent x v).setLock x owner)
  -- a doomed or sealed transaction drops its locks
  | release (c t st) :
      c.status t = .doomed ∧ st = .doomed ∨ c.status t = .sealed ∧ st = .done → Step inRange c
        ((c.dropLocks t).setStatus t st)
  -- a transaction with writes logs its commit
  | commit (c t prevLsn) :
      c.status t = .idle → Step inRange c ((c.append t prevLsn .commit).setStatus t .sealed)
  -- a transaction without writes has nothing to log
  | quiet (c t) :
      c.status t = .idle → (∀ x, ¬ Log.ChangedBy c.log t x) → Step inRange c (c.setStatus t .sealed)
  -- records that say nothing about rows
  | note (c t prevLsn body) :
      c.status t = .doomed ∧ body = .abort ∨ body = .checkpoint →
      Step inRange c (c.append t prevLsn body)
  | flush (c n) :
      c.flushed ≤ n → n ≤ c.log.length → Step inRange c { c with flushed := n }
  -- pages are written back, the log before them
  | writeBack (c disk) :
      (∀ P, disk P = c.disk P ∨ disk P = c.image P ∧ c.pageLsn P < c.flushed ∧
          ∀ t d st, c.status t = .op d st → d.loc.page = P → ¬ Torn d st) →
      Step inRange c { c with disk := disk }
  | skip (c) : Step inRange c c

end Wal

end Rmdb
