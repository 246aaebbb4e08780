import Mathlib.Data.Finset.Basic
import Mathlib.Order.Bounds.Basic
import Mathlib.Data.Fintype.Pi
import Rmdb.Recovery.LogRecord

/-
  This file models the lock table of `LockManager`: no-wait
  two-phase locking with the modes IS, IX, S, SIX and X on tables
  and records.

  Key definitions include:
    * `LockManager.lock`
    * `LockManager.unlock`
    * `LockManager.IdOk`

  Key theorems include:
    * `LockManager.lock_table`
-/

namespace Rmdb

open Function

------------
-- Modes
------------

inductive LockMode where
  | shared
  | exlucsive
  | intentionShared
  | intentionExclusive
  | sIx
deriving DecidableEq, Repr

instance : Fintype LockMode where
  elems := {.shared, .exlucsive, .intentionShared, .intentionExclusive, .sIx}
  complete k := by cases k <;> decide

inductive GroupLockMode where
  | nonLock
  | is
  | ix
  | s
  | x
  | six
deriving DecidableEq, Repr

namespace LockMode

def compatible (lhs rhs : LockMode) : Bool :=
  if lhs = .exlucsive || rhs = .exlucsive then
    false
  else if lhs = .sIx then
    rhs = .intentionShared
  else if rhs = .sIx then
    lhs = .intentionShared
  else if lhs = .shared then
    rhs = .shared || rhs = .intentionShared
  else if rhs = .shared then
    lhs = .shared || lhs = .intentionShared
  else
    true

def mergeLock (cur req : LockMode) : LockMode :=
  if cur = req then
    cur
  else if cur = .exlucsive || req = .exlucsive then
    .exlucsive
  else if cur = .sIx || req = .sIx then
    .sIx
  else if (cur = .shared && req = .intentionExclusive) ||
      (cur = .intentionExclusive && req = .shared) then
    .sIx
  else if cur = .intentionExclusive || req = .intentionExclusive then
    .intentionExclusive
  else if cur = .shared || req = .shared then
    .shared
  else
    .intentionShared

def covers (held req : LockMode) : Bool :=
  mergeLock held req = held

def groupFromLock : LockMode → GroupLockMode
| .intentionShared => .is
| .intentionExclusive => .ix
| .shared => .s
| .sIx => .six
| .exlucsive => .x

/- A mode is above another one if it conflicts with every mode
  that the other one conflicts with. -/
instance : PartialOrder LockMode where
  le a b := ∀ c, compatible b c = true → compatible a c = true
  le_refl _ _ h := h
  le_trans _ _ _ hAB hBC c h := hAB c (hBC c h)
  le_antisymm := by decide

instance (a b : LockMode) : Decidable (a ≤ b) :=
  inferInstanceAs (Decidable (∀ c, compatible b c = true → compatible a c = true))

theorem compatible_comm : ∀ a b, compatible a b = compatible b a := by decide

/- The merged mode is the join of the two. -/
theorem mergeLock_le_iff :
    ∀ a b u, mergeLock a b ≤ u ↔ a ≤ u ∧ b ≤ u := by decide

theorem isLUB_merge
    {ks : List LockMode}
    {held : LockMode}
    (hHeld : IsLUB {k | k ∈ ks} held)
    (req : LockMode) :
    IsLUB {k | k ∈ req :: ks} (mergeLock held req) := by
  rw [isLUB_iff_le_iff] at hHeld ⊢
  intro u
  rw [mergeLock_le_iff, hHeld]
  constructor
  · rintro ⟨hOld, hNew⟩ k hK
    rcases List.mem_cons.mp hK with rfl | hK
    · exact hNew
    · exact hOld hK
  · intro hAll
    exact ⟨fun k hK => hAll (List.mem_cons_of_mem _ hK), hAll List.mem_cons_self⟩

end LockMode

open LockMode

------------
-- The Lock Table
------------

inductive LockDataType where
  | table
  | record
deriving DecidableEq, Repr

structure LockDataId where
  fd : Int
  rid : Rid
  type : LockDataType
deriving DecidableEq, Repr

def LockDataId.ofTable (fd : Int) : LockDataId :=
  ⟨fd, ⟨-1, -1⟩, .table⟩

def LockDataId.ofRecord (fd : Int) (rid : Rid) : LockDataId :=
  ⟨fd, rid, .record⟩

structure LockRequest where
  txnId : TxnId
  lockMode : LockMode
  granted : Bool
deriving DecidableEq, Repr

structure LockRequestQueue where
  requestQueue : List LockRequest := []
  groupLockMode : GroupLockMode := .nonLock
deriving DecidableEq, Repr

inductive TransactionState where
  | default
  | growing
  | shrinking
  | committed
  | aborted
deriving DecidableEq, Repr

structure LockTxn where
  state : TransactionState
  lockSet : Finset LockDataId

inductive LockError where
  | lockOnShirinking
  | deadlockPrevention
deriving DecidableEq, Repr

/- The queues of all shards, and the transactions. -/
structure LockManager where
  lockTable : LockDataId → Option LockRequestQueue
  txn : TxnId → LockTxn

/- The granted request of a transaction. -/
def LockRequest.isOf (t : TxnId) (r : LockRequest) : Bool :=
  r.txnId = t && r.granted

namespace LockRequestQueue

/- Which modes are granted, and the strongest group of them. -/
def groupOf (has : LockMode → Bool) : GroupLockMode :=
  if has .exlucsive then
    .x
  else if has .sIx || (has .shared && has .intentionExclusive) then
    .six
  else if has .shared then
    .s
  else if has .intentionExclusive then
    .ix
  else if has .intentionShared then
    .is
  else
    .nonLock

def recomputeGroup (requests : List LockRequest) : LockRequestQueue where
  requestQueue := requests
  groupLockMode := groupOf (fun k => requests.any (fun r => r.granted && r.lockMode = k))

/- Change the mode of the first granted request of a
  transaction. -/
def upgrade
    (t : TxnId)
    (mode : LockMode) :
    List LockRequest → List LockRequest
| [] => []
| r :: rest =>
  if r.isOf t then
    { r with lockMode := mode } :: rest
  else
    r :: upgrade t mode rest

/- Take the first granted request of a transaction out. -/
def release (t : TxnId) (queue : LockRequestQueue) : LockRequestQueue :=
  if queue.requestQueue.any (·.isOf t) then
    recomputeGroup (queue.requestQueue.eraseP (·.isOf t))
  else
    queue

end LockRequestQueue

open LockRequestQueue

namespace LockManager

def setQueue
    (m : LockManager)
    (lid : LockDataId)
    (queue : Option LockRequestQueue) :
    LockManager :=
  { m with lockTable := Function.update m.lockTable lid queue }

def setTxn
    (m : LockManager)
    (t : TxnId)
    (txn : LockTxn) :
    LockManager :=
  { m with txn := Function.update m.txn t txn }

/- `lock_set_.insert` -/
def addLock
    (m : LockManager)
    (t : TxnId)
    (lid : LockDataId) :
    LockManager :=
  m.setTxn t { m.txn t with lockSet := insert lid (m.txn t).lockSet }

/- `lock_set_.erase`, and the end of the growing phase. -/
def dropLock
    (m : LockManager)
    (t : TxnId)
    (lid : LockDataId) :
    LockManager :=
  m.setTxn t
    ⟨if (m.txn t).state = .growing ∨ (m.txn t).state = .default then
        .shrinking
      else
        (m.txn t).state,
      (m.txn t).lockSet.erase lid⟩

/- `lock_table_[lid]`: a queue that is not there is put there. -/
def touch (m : LockManager) (lid : LockDataId) : LockManager :=
  m.setQueue lid (some ((m.lockTable lid).getD {}))

/- The requests in the queue of an id. -/
def requests (queue : Option LockRequestQueue) : List LockRequest :=
  (queue.getD {}).requestQueue

/- A lock call on a queue with requests, `own` among them. -/
def lockBeside
    (m : LockManager)
    (t : TxnId)
    (lid : LockDataId)
    (mode : LockMode)
    (rs : List LockRequest)
    (own : Option LockRequest) :
    LockManager × Except LockError Bool :=
  let requested := match own with
    | none => mode
    | some r => mergeLock r.lockMode mode
  if own.any (fun r => covers r.lockMode mode) then
    (m, .ok true)
  else if rs.any (fun r => !(!r.granted || r.txnId = t) && !compatible requested r.lockMode) then
    (m, .error .deadlockPrevention)
  else if own.isSome then
    (m.setQueue lid (some (recomputeGroup (upgrade t requested rs))), .ok true)
  else
    ((m.setQueue lid (some (recomputeGroup (rs ++ [⟨t, requested, true⟩])))).addLock t lid,
      .ok true)

def lock
    (m : LockManager)
    (t : TxnId)
    (lid : LockDataId)
    (mode : LockMode) :
    LockManager × Except LockError Bool :=
  if (m.txn t).state = .shrinking then
    (m, .error .lockOnShirinking)
  else
    let rs := requests (m.lockTable lid)
    let m := m.touch lid
    if rs.isEmpty then
      ((m.setQueue lid (some ⟨[⟨t, mode, true⟩], groupFromLock mode⟩)).addLock t lid, .ok true)
    else
      m.lockBeside t lid mode rs (rs.find? (·.isOf t))

def unlock
    (m : LockManager)
    (t : TxnId)
    (lid : LockDataId) :
    LockManager × Except LockError Bool :=
  match m.lockTable lid with
  | none => (m, .ok false)
  | some queue =>
    if queue.requestQueue.length = 1 ∧ queue.requestQueue.any (·.isOf t) then
      ((m.dropLock t lid).setQueue lid none, .ok true)
    else
      let queue := queue.release t
      ((m.dropLock t lid).setQueue lid
        (if queue.requestQueue.isEmpty then none else some queue), .ok true)

end LockManager

/- The calls, with the public ones as instances of `lock`. -/
inductive LockCall where
  | lock (t : TxnId) (lid : LockDataId) (mode : LockMode)
  | unlock (t : TxnId) (lid : LockDataId)
deriving DecidableEq, Repr

namespace LockCall

def lockSharedOnRecord (t : TxnId) (rid : Rid) (fd : Int) : LockCall :=
  .lock t (.ofRecord fd rid) .shared

def lockExclusiveOnRecord
    (t : TxnId)
    (rid : Rid)
    (fd : Int) :
    LockCall :=
  .lock t (.ofRecord fd rid) .exlucsive

def lockSharedOnTable (t : TxnId) (fd : Int) : LockCall :=
  .lock t (.ofTable fd) .shared

def lockExclusiveOnTable (t : TxnId) (fd : Int) : LockCall :=
  .lock t (.ofTable fd) .exlucsive

def lockISOnTable (t : TxnId) (fd : Int) : LockCall :=
  .lock t (.ofTable fd) .intentionShared

def lockIXOnTable (t : TxnId) (fd : Int) : LockCall :=
  .lock t (.ofTable fd) .intentionExclusive

def run (m : LockManager) : LockCall → LockManager × Except LockError Bool
| .lock t lid mode => m.lock t lid mode
| .unlock t lid => m.unlock t lid

end LockCall

------------
-- Runs
------------

/- The modes each transaction was granted since it gave an id
  up. -/
abbrev Granted :=
  LockDataId → TxnId → List LockMode

namespace LockManager

def init (states : TxnId → TransactionState) : LockManager :=
  ⟨fun _ => none, fun t => ⟨states t, ∅⟩⟩

/- What a call that returned true did to the granted modes. -/
def note (g : Granted) : LockCall → Granted
| .lock t lid mode =>
  Function.update g lid (Function.update (g lid) t (mode :: g lid t))
| .unlock t lid => Function.update g lid (Function.update (g lid) t [])

/- A call, recorded. -/
def follow
    (s : LockManager × Granted)
    (c : LockCall) :
    LockManager × Granted :=
  ((c.run s.1).1, if (c.run s.1).2 = .ok true then note s.2 c else s.2)

def runAll
    (states : TxnId → TransactionState)
    (calls : List LockCall) :
    LockManager × Granted :=
  calls.foldl follow (init states, fun _ _ => [])

/- What holds of one id: of its queue, the modes that were
  granted on it and the transactions that have it in their
  lock set. -/
structure IdOk
    (queue : Option LockRequestQueue)
    (modes : TxnId → List LockMode)
    (inSet : TxnId → Prop) :
    Prop where
  granted : ∀ r ∈ requests queue, r.granted = true
  compatible : ∀ r ∈ requests queue, ∀ r' ∈ requests queue, r.txnId ≠ r'.txnId →
      LockMode.compatible r.lockMode r'.lockMode = true
  once : ((requests queue).map (·.txnId)).Nodup
  join : ∀ r ∈ requests queue, IsLUB {k | k ∈ modes r.txnId} r.lockMode
  group : ∀ q, queue = some q → ∃ k, q.groupLockMode = groupFromLock k ∧
      IsLUB {k | ∃ r ∈ q.requestQueue, r.lockMode = k} k
  lockSet : ∀ t, inSet t ↔ ∃ r ∈ requests queue, r.txnId = t
  -- no request, nothing granted
  fresh : ∀ t, (∀ r ∈ requests queue, r.txnId ≠ t) → modes t = []

def Ok (s : LockManager × Granted) : Prop :=
  ∀ lid, IdOk (s.1.lockTable lid) (s.2 lid) (fun t => lid ∈ (s.1.txn t).lockSet)

------------
-- One Queue
------------

theorem groupOf_isLUB :
    ∀ has : LockMode → Bool, (∃ k, has k = true) → ∃ k,
      groupOf has = groupFromLock k ∧
      ∀ u, k ≤ u ↔ ∀ j, has j = true → j ≤ u := by
  decide +kernel

theorem recomputeGroup_isLUB
    {rs : List LockRequest}
    (hSome : rs ≠ [])
    (hGranted : ∀ r ∈ rs, r.granted = true) :
    ∃ k, (recomputeGroup rs).groupLockMode = groupFromLock k ∧
      IsLUB {k | ∃ r ∈ rs, r.lockMode = k} k := by
  have hHas : ∀ k, rs.any (fun r => r.granted && r.lockMode = k) = true ↔
      ∃ r ∈ rs, r.lockMode = k := by
    intro k
    rw [List.any_eq_true]
    refine exists_congr (fun r => and_congr_right (fun hR => ?_))
    simp [hGranted r hR]
  rcases groupOf_isLUB (fun k => rs.any (fun r => r.granted && r.lockMode = k))
    ⟨(rs.head hSome).lockMode, (hHas _).mpr ⟨_, List.head_mem hSome, rfl⟩⟩ with ⟨k, hGroup, hK⟩
  refine ⟨k, hGroup, isLUB_iff_le_iff.mpr (fun u => (hK u).trans ?_)⟩
  exact forall_congr' (fun j => imp_congr_left (hHas j))

section Queue

variable {t : TxnId} {rs : List LockRequest} {k : LockMode}

variable {r : LockRequest}

theorem isOf_iff (hGranted : r.granted = true) :
    r.isOf t = true ↔ r.txnId = t := by
  simp [LockRequest.isOf, hGranted]

theorem map_upgrade : (upgrade t k rs).map (·.txnId) = rs.map (·.txnId) := by
  induction rs with
  | nil => rfl
  | cons r rs ih =>
    unfold upgrade
    split
    · rfl
    · rw [List.map_cons, ih, List.map_cons]

/- With one request for each transaction, that of `t` is
  changed. -/
theorem mem_upgrade
    {own : LockRequest}
    (hGranted : ∀ r ∈ rs, r.granted = true)
    (hOnce : (rs.map (·.txnId)).Nodup)
    (hOwn : own ∈ rs)
    (hTxn : own.txnId = t) :
    r ∈ upgrade t k rs ↔ (r ∈ rs ∧ r.txnId ≠ t) ∨ r = ⟨t, k, true⟩ := by
  induction rs with
  | nil => cases hOwn
  | cons q rs ih =>
    rw [List.map_cons, List.nodup_cons] at hOnce
    have hQ := hGranted q List.mem_cons_self
    have hRest : ∀ r ∈ rs, r.txnId ≠ q.txnId := fun r hR hT =>
      hOnce.1 (List.mem_map.mpr ⟨r, hR, hT⟩)
    unfold upgrade
    by_cases hIs : q.txnId = t
    · rw [if_pos ((isOf_iff hQ).mpr hIs), List.mem_cons, List.mem_cons, hQ, hIs]
      grind
    · rw [if_neg (mt (isOf_iff hQ).mp hIs), List.mem_cons, List.mem_cons,
        ih (fun r hR => hGranted r (List.mem_cons_of_mem _ hR)) hOnce.2 (by grind)]
      grind

theorem mem_eraseP_isOf (hGranted : ∀ r ∈ rs, r.granted = true)
    (hOnce : (rs.map (·.txnId)).Nodup) :
    r ∈ rs.eraseP (·.isOf t) ↔ r ∈ rs ∧ r.txnId ≠ t := by
  induction rs with
  | nil => simp
  | cons q rs ih =>
    rw [List.map_cons, List.nodup_cons] at hOnce
    have hQ := hGranted q List.mem_cons_self
    have hRest : ∀ r ∈ rs, r.txnId ≠ q.txnId := fun r hR hT =>
      hOnce.1 (List.mem_map.mpr ⟨r, hR, hT⟩)
    by_cases hIs : q.txnId = t
    · rw [List.eraseP_cons_of_pos ((isOf_iff hQ).mpr hIs)]
      grind
    · rw [List.eraseP_cons_of_neg (mt (isOf_iff hQ).mp hIs), List.mem_cons, List.mem_cons,
        ih (fun r hR => hGranted r (List.mem_cons_of_mem _ hR)) hOnce.2]
      grind

end Queue

section Ids

variable {queue queue' : Option LockRequestQueue} {modes : TxnId → List LockMode}
variable {inSet inSet' : TxnId → Prop} {t : TxnId} {k : LockMode} {ks : List LockMode}

/- A transaction is granted a mode: it has one request with it. -/
theorem IdOk.grant
    (hOk : IdOk queue modes inSet)
    (hMem : ∀ r, r ∈ requests queue' ↔ (r ∈ requests queue ∧ r.txnId ≠ t) ∨
      r = ⟨t, k, true⟩)
    (hOnce : ((requests queue').map (·.txnId)).Nodup)
    (hJoin : IsLUB {j | j ∈ ks} k)
    (hFree : ∀ r ∈ requests queue, r.txnId ≠ t →
      LockMode.compatible k r.lockMode = true)
    (hGroup : ∀ q, queue' = some q → ∃ k, q.groupLockMode = groupFromLock k ∧
      IsLUB {k | ∃ r ∈ q.requestQueue, r.lockMode = k} k)
    (hSet : ∀ u, inSet' u ↔ u = t ∨ inSet u) :
    IdOk queue' (update modes t ks) inSet' := by
  refine ⟨?_, ?_, hOnce, ?_, hGroup, ?_, ?_⟩
  · intro r hR
    rcases (hMem r).mp hR with ⟨hOld, -⟩ | rfl
    · exact hOk.granted r hOld
    · rfl
  · intro r hR r' hR' hNe
    rcases (hMem r).mp hR with ⟨hOld, hT⟩ | rfl <;> rcases (hMem r').mp hR' with ⟨hOld', hT'⟩ | rfl
    · exact hOk.compatible r hOld r' hOld' hNe
    · rw [compatible_comm]
      exact hFree r hOld hT
    · exact hFree r' hOld' hT'
    · exact absurd rfl hNe
  · intro r hR
    rcases (hMem r).mp hR with ⟨hOld, hT⟩ | rfl
    · rw [update_of_ne hT]
      exact hOk.join r hOld
    · rw [update_self]
      exact hJoin
  · intro u
    rw [hSet, hOk.lockSet]
    constructor
    · rintro (rfl | ⟨r, hR, rfl⟩)
      · exact ⟨_, (hMem _).mpr (Or.inr rfl), rfl⟩
      · by_cases hT : r.txnId = t
        · exact ⟨_, (hMem _).mpr (Or.inr rfl), hT.symm⟩
        · exact ⟨r, (hMem r).mpr (Or.inl ⟨hR, hT⟩), rfl⟩
    · rintro ⟨r, hR, rfl⟩
      rcases (hMem r).mp hR with ⟨hOld, -⟩ | rfl
      · exact Or.inr ⟨r, hOld, rfl⟩
      · exact Or.inl rfl
  · intro u hNone
    have hU : u ≠ t := fun h => hNone ⟨t, k, true⟩ ((hMem _).mpr (Or.inr rfl)) h.symm
    rw [update_of_ne hU]
    exact hOk.fresh u (fun r hR hT => hNone r ((hMem r).mpr (Or.inl ⟨hR, hT ▸ hU⟩)) hT)

/- A transaction gives an id up. -/
theorem IdOk.giveUp (hOk : IdOk queue modes inSet)
    (hMem : ∀ r, r ∈ requests queue' ↔ r ∈ requests queue ∧ r.txnId ≠ t)
    (hOnce : ((requests queue').map (·.txnId)).Nodup)
    (hGroup : ∀ q, queue' = some q → ∃ k, q.groupLockMode = groupFromLock k ∧
      IsLUB {k | ∃ r ∈ q.requestQueue, r.lockMode = k} k)
    (hSet : ∀ u, inSet' u ↔ u ≠ t ∧ inSet u) :
    IdOk queue' (update modes t []) inSet' := by
  refine ⟨fun r hR => hOk.granted r ((hMem r).mp hR).1, ?_, hOnce, ?_, hGroup, ?_, ?_⟩
  · intro r hR r' hR'
    exact hOk.compatible r ((hMem r).mp hR).1 r' ((hMem r').mp hR').1
  · intro r hR
    rcases (hMem r).mp hR with ⟨hOld, hT⟩
    rw [update_of_ne hT]
    exact hOk.join r hOld
  · intro u
    rw [hSet, hOk.lockSet]
    grind
  · intro u hNone
    by_cases hU : u = t
    · rw [hU, update_self]
    · rw [update_of_ne hU]
      exact hOk.fresh u (fun r hR hT => hNone r ((hMem r).mpr ⟨hR, hT ▸ hU⟩) hT)

end Ids

------------
-- One Call
------------

section Calls

variable {m m' : LockManager} {g g' : Granted} {t : TxnId} {lid : LockDataId} {mode : LockMode}

/- A call changes the queue of one id. -/
theorem Ok.at
    (hOk : Ok (m, g))
    {queue : Option LockRequestQueue}
    {modes : TxnId → List LockMode}
    (hTable : m'.lockTable = update m.lockTable lid queue)
    (hSet : ∀ u, ∀ lid' ≠ lid, lid' ∈ (m'.txn u).lockSet ↔
      lid' ∈ (m.txn u).lockSet)
    (hHere : IdOk queue modes (fun u => lid ∈ (m'.txn u).lockSet)) :
    Ok (m', update g lid modes) := by
  intro lid'
  by_cases hLid : lid' = lid
  · subst hLid
    simpa only [hTable, update_self] using hHere
  · have hIds := hOk lid'
    simp only [hTable, update_of_ne hLid, hSet _ lid' hLid]
    exact hIds

variable {q : LockRequestQueue}

theorem touch_eq (hQueue : m.lockTable lid = some q) : m.touch lid = m := by
  unfold touch setQueue
  rw [hQueue, Option.getD_some, ← hQueue, update_eq_self]

theorem mem_addLock
    (u : TxnId)
    (lid' : LockDataId) :
    lid' ∈ ((m.addLock t lid).txn u).lockSet ↔ (u = t ∧ lid' = lid) ∨
      lid' ∈ (m.txn u).lockSet := by
  by_cases hU : u = t
  · subst hU
    simp [addLock, setTxn]
  · simp [addLock, setTxn, hU]

theorem state_addLock (u : TxnId) :
    ((m.addLock t lid).txn u).state = (m.txn u).state := by
  by_cases hU : u = t
  · subst hU
    simp [addLock, setTxn]
  · simp [addLock, setTxn, hU]

theorem mem_dropLock
    (u : TxnId)
    (lid' : LockDataId) :
    lid' ∈ ((m.dropLock t lid).txn u).lockSet ↔
      (u = t → lid' ≠ lid) ∧ lid' ∈ (m.txn u).lockSet := by
  by_cases hU : u = t
  · subst hU
    simp [dropLock, setTxn]
  · simp [dropLock, setTxn, hU]

/- A new request gets the mode that was asked for. -/
theorem Ok.newRequest
    (hOk : Ok (m, g))
    (hNone : ∀ r ∈ requests (m.lockTable lid), r.txnId ≠ t)
    (hFree : ∀ r ∈ requests (m.lockTable lid),
      compatible mode r.lockMode = true)
    (hQ : q.requestQueue = requests (m.lockTable lid) ++ [⟨t, mode, true⟩])
    (hGroup : ∃ k, q.groupLockMode = groupFromLock k ∧
      IsLUB {k | ∃ r ∈ q.requestQueue, r.lockMode = k} k)
    (hTable : m'.lockTable = update m.lockTable lid (some q))
    (hTxn : m'.txn = m.txn) :
    Ok (m'.addLock t lid, note g (.lock t lid mode)) := by
  have hId := hOk lid
  have hMem : ∀ r, r ∈ requests (some q) ↔
      (r ∈ requests (m.lockTable lid) ∧ r.txnId ≠ t) ∨ r = ⟨t, mode, true⟩ := by
    intro r
    change r ∈ q.requestQueue ↔ _
    rw [hQ, List.mem_append, List.mem_singleton]
    exact or_congr_left ⟨fun h => ⟨h, hNone r h⟩, And.left⟩
  refine hOk.at hTable ?_ (hId.grant hMem ?_ ?_ (fun r hR _ => hFree r hR) ?_ ?_)
  · intro u lid' hNe
    rw [mem_addLock, hTxn]
    simp [hNe]
  · change (q.requestQueue.map (·.txnId)).Nodup
    rw [hQ, List.map_append, List.nodup_append]
    refine ⟨hId.once, by simp, ?_⟩
    intro u hU v hV
    rcases List.mem_map.mp hU with ⟨r, hR, rfl⟩
    rw [List.mem_singleton.mp hV]
    exact hNone r hR
  · have hFresh : g lid t = [] := hId.fresh t hNone
    simp only [hFresh, List.mem_singleton]
    exact isLUB_singleton
  · rintro _ ⟨⟩
    exact hGroup
  · intro u
    rw [mem_addLock, hTxn]
    simp

theorem Ok.lockBeside
    (hOk : Ok (m, g))
    {own : Option LockRequest}
    (hOwn : (requests (m.lockTable lid)).find? (·.isOf t) = own) :
    (∃ e, m.lockBeside t lid mode (requests (m.lockTable lid)) own =
      (m, .error e)) ∨
      ∃ m', m.lockBeside t lid mode (requests (m.lockTable lid)) own =
        (m', .ok true) ∧
        (∀ u, (m'.txn u).state = (m.txn u).state) ∧
        Ok (m', note g (.lock t lid mode)) := by
  have hId := hOk lid
  generalize hRs : requests (m.lockTable lid) = rs at hOwn
  -- without a conflict the others are compatible with the mode
  have hFree : ∀ k : LockMode, rs.any (fun r =>
      !(!r.granted || r.txnId = t) && !compatible k r.lockMode) = false →
      ∀ r ∈ rs, r.txnId ≠ t → compatible k r.lockMode = true := by
    intro k hAny r hR hT
    have hNot := List.any_eq_false.mp hAny r hR
    simpa [hId.granted r (hRs ▸ hR), hT] using hNot
  unfold LockManager.lockBeside
  cases own with
  | none =>
    have hNone : ∀ r ∈ rs, r.txnId ≠ t := by
      intro r hR hT
      exact List.find?_eq_none.mp hOwn r hR ((isOf_iff (hId.granted r (hRs ▸ hR))).mpr hT)
    simp only [Option.any_none, Bool.false_eq_true, if_false, Option.isSome_none]
    split
    · exact Or.inl ⟨_, rfl⟩
    · rename_i hAny
      have hOthers := hFree mode (by simpa using hAny)
      refine Or.inr ⟨_, rfl, fun u => state_addLock u, ?_⟩
      refine hOk.newRequest (hRs ▸ hNone) (hRs ▸ fun r hR => hOthers r hR (hNone r hR))
        (congrArg (· ++ _) hRs.symm) ?_ rfl rfl
      refine recomputeGroup_isLUB (by simp) ?_
      intro r hR
      rcases List.mem_append.mp hR with hOld | hNew
      · exact hId.granted r (hRs ▸ hOld)
      · rw [List.mem_singleton.mp hNew]
  | some own =>
    have hMine : own ∈ rs := List.mem_of_find?_eq_some hOwn
    have hGranted := hId.granted own (hRs ▸ hMine)
    have hTxn : own.txnId = t := (isOf_iff hGranted).mp (List.find?_some hOwn)
    subst hTxn
    have hUnique : ∀ r ∈ rs, r.txnId = own.txnId → r = ⟨own.txnId, own.lockMode, true⟩ := by
      intro r hR hT
      rw [← hGranted]
      exact List.inj_on_of_nodup_map (hRs ▸ hId.once) hR hMine hT
    have hJoin := isLUB_merge (hId.join own (hRs ▸ hMine)) mode
    have hIn : ∀ u, lid ∈ (m.txn u).lockSet ↔ u = own.txnId ∨ lid ∈ (m.txn u).lockSet := by
      intro u
      refine ⟨Or.inr, ?_⟩
      rintro (rfl | h)
      · exact (hId.lockSet own.txnId).mpr ⟨own, hRs ▸ hMine, rfl⟩
      · exact h
    simp only [Option.any_some, Option.isSome_some, if_true]
    by_cases hCovers : covers own.lockMode mode = true
    · have hHeld : mergeLock own.lockMode mode = own.lockMode := by simpa [covers] using hCovers
      rw [hHeld] at hJoin
      refine Or.inr ⟨m, if_pos hCovers, fun _ => rfl, ?_⟩
      refine hOk.at (update_eq_self lid _).symm (fun _ _ _ => Iff.rfl)
        (hId.grant ?_ hId.once hJoin ?_ hId.group hIn)
      · intro r
        rw [hRs]
        constructor
        · intro hR
          by_cases hT : r.txnId = own.txnId
          · exact Or.inr (hUnique r hR hT)
          · exact Or.inl ⟨hR, hT⟩
        · rintro (⟨hR, -⟩ | rfl)
          · exact hR
          · exact hUnique own hMine rfl ▸ hMine
      · exact fun r hR hT => hId.compatible own (hRs ▸ hMine) r hR (Ne.symm hT)
    · rw [if_neg hCovers]
      split
      · exact Or.inl ⟨_, rfl⟩
      · rename_i hAny
        have hMem := fun r => mem_upgrade (r := r) (k := mergeLock own.lockMode mode)
          (hRs ▸ hId.granted) (hRs ▸ hId.once) hMine rfl
        refine Or.inr ⟨_, rfl, fun _ => rfl, ?_⟩
        refine hOk.at rfl (fun _ _ _ => Iff.rfl) (hId.grant (hRs ▸ hMem) ?_ hJoin
          (hRs ▸ hFree _ (by simpa using hAny)) ?_ hIn)
        · change ((upgrade _ _ rs).map (·.txnId)).Nodup
          rw [map_upgrade]
          exact hRs ▸ hId.once
        · rintro _ ⟨⟩
          refine recomputeGroup_isLUB ?_ ?_
          · exact List.ne_nil_of_mem ((hMem _).mpr (Or.inr rfl))
          · intro r hR
            rcases (hMem r).mp hR with ⟨hOld, -⟩ | rfl
            · exact hId.granted r (hRs ▸ hOld)
            · rfl

/- What a lock call comes to. -/
theorem Ok.lock
    (hOk : Ok (m, g))
    (t : TxnId)
    (lid : LockDataId)
    (mode : LockMode) :
    (∃ e, m.lock t lid mode = (m, .error e)) ∨
      ∃ m', m.lock t lid mode = (m', .ok true) ∧
        (∀ u, (m'.txn u).state = (m.txn u).state) ∧
        Ok (m', note g (.lock t lid mode)) := by
  unfold LockManager.lock
  by_cases hShrinking : (m.txn t).state = .shrinking
  · exact Or.inl ⟨_, if_pos hShrinking⟩
  rw [if_neg hShrinking]
  by_cases hRs : requests (m.lockTable lid) = []
  · refine Or.inr ⟨_, if_pos (by rw [hRs]; rfl), fun u => state_addLock u, ?_⟩
    refine hOk.newRequest (q := ⟨[⟨t, mode, true⟩], groupFromLock mode⟩) ?_ ?_ ?_ ?_ ?_ rfl
    · simp [hRs]
    · simp [hRs]
    · simp [hRs]
    · exact ⟨mode, rfl, by simp⟩
    · simp [setQueue, touch]
  · have hTouch : m.touch lid = m := by
      cases hQueue : m.lockTable lid with
      | none => simp [requests, hQueue] at hRs
      | some q => exact touch_eq hQueue
    rw [if_neg (by simpa using hRs), hTouch]
    exact hOk.lockBeside rfl

theorem requestQueue_release
    (t : TxnId)
    (q : LockRequestQueue) :
    (q.release t).requestQueue = q.requestQueue.eraseP (·.isOf t) := by
  unfold release
  split
  · rfl
  · rename_i hNone
    refine (List.eraseP_of_forall_not ?_).symm
    simpa using hNone

/- What an unlock call comes to. -/
theorem Ok.unlock
    (hOk : Ok (m, g))
    (t : TxnId)
    (lid : LockDataId) :
    m.unlock t lid = (m, .ok false) ∨
      ∃ m', m.unlock t lid = (m', .ok true) ∧ m'.txn = (m.dropLock t lid).txn ∧
        Ok (m', note g (.unlock t lid)) := by
  have hId := hOk lid
  unfold LockManager.unlock
  cases hQueue : m.lockTable lid with
  | none => exact Or.inl rfl
  | some q =>
    rw [hQueue] at hId
    -- whatever becomes of the queue, it keeps the other requests
    have hRest : ∀ queue : Option LockRequestQueue,
        requests queue = q.requestQueue.eraseP (·.isOf t) →
        (∀ q', queue = some q' → ∃ k, q'.groupLockMode = groupFromLock k ∧
          IsLUB {k | ∃ r ∈ q'.requestQueue, r.lockMode = k} k) →
        Ok ((m.dropLock t lid).setQueue lid queue, note g (.unlock t lid)) := by
      intro queue hRs hGroup
      refine hOk.at rfl ?_ ((hQueue ▸ hId).giveUp ?_ ?_ hGroup ?_)
      · exact fun u lid' hNe => (mem_dropLock u lid').trans (and_iff_right (fun _ => hNe))
      · intro r
        rw [hRs, hQueue]
        exact mem_eraseP_isOf hId.granted hId.once
      · rw [hRs]
        exact hId.once.sublist (List.eraseP_sublist.map _)
      · exact fun u => (mem_dropLock u lid).trans (and_congr_left (fun _ => by simp))
    simp only
    split
    · rename_i hSole
      refine Or.inr ⟨_, rfl, rfl, hRest none ?_ (by simp)⟩
      rcases List.length_eq_one_iff.mp hSole.1 with ⟨r, hR⟩
      have hIs := hSole.2
      rw [hR] at hIs ⊢
      rw [List.eraseP_cons_of_pos (by simpa using hIs)]
      rfl
    · refine Or.inr ⟨_, rfl, rfl, hRest _ ?_ ?_⟩
      · rw [← requestQueue_release]
        split
        · rename_i hEmpty
          exact (List.isEmpty_iff.mp hEmpty).symm
        · rfl
      · intro q' hQ'
        split at hQ'
        · cases hQ'
        · rename_i hSome
          cases hQ'
          rw [requestQueue_release, List.isEmpty_iff] at hSome
          unfold release
          split
          · exact recomputeGroup_isLUB hSome (fun r hR => hId.granted r (List.mem_of_mem_eraseP hR))
          · exact hId.group q rfl

end Calls

variable {s : LockManager × Granted}

------------
-- All Runs
------------

theorem Ok.follow (hOk : Ok s) (c : LockCall) : Ok (follow s c) := by
  unfold LockManager.follow
  cases c with
  | lock t lid mode =>
    rcases hOk.lock t lid mode with ⟨e, hRun⟩ | ⟨m, hRun, -, hOk'⟩
    · simpa [LockCall.run, hRun] using hOk
    · simpa [LockCall.run, hRun] using hOk'
  | unlock t lid =>
    rcases hOk.unlock t lid with hRun | ⟨m, hRun, -, hOk'⟩
    · simpa [LockCall.run, hRun] using hOk
    · simpa [LockCall.run, hRun] using hOk'

theorem Ok.foldl
    (hOk : Ok s)
    (calls : List LockCall) :
    Ok (calls.foldl LockManager.follow s) := by
  induction calls generalizing s with
  | nil => exact hOk
  | cons c rest ih => exact ih (hOk.follow c)

theorem ok_init (states : TxnId → TransactionState) :
    Ok (init states, fun _ _ => []) := by
  intro lid
  refine ⟨?_, ?_, ?_, ?_, ?_, ?_, ?_⟩ <;> simp [init, requests]

/- The states of a run are those of the start, or shrinking. -/
theorem state_foldl
    {P : TransactionState → Prop}
    (hShrinking : P .shrinking)
    (hOk : Ok s)
    {t : TxnId}
    (hState : P (s.1.txn t).state)
    (calls : List LockCall) :
    P ((calls.foldl LockManager.follow s).1.txn t).state := by
  induction calls generalizing s with
  | nil => exact hState
  | cons c rest ih =>
    refine ih (hOk.follow c) ?_
    change P ((c.run s.1).1.txn t).state
    cases c with
    | lock u lid mode =>
      rcases hOk.lock u lid mode with ⟨e, hRun⟩ | ⟨m, hRun, hSame, -⟩
      · simpa [LockCall.run, hRun] using hState
      · simpa [LockCall.run, hRun, hSame] using hState
    | unlock u lid =>
      rcases hOk.unlock u lid with hRun | ⟨m, hRun, hTxn, -⟩
      · simpa [LockCall.run, hRun] using hState
      · simp only [LockCall.run, hRun, hTxn, dropLock, setTxn]
        by_cases hU : t = u
        · subst hU
          rw [update_self]
          split
          · exact hShrinking
          · exact hState
        · rw [update_of_ne hU]
          exact hState

/- The lock table of every run: the state of each id, lock
  calls that throw, and two-phase locking. -/
theorem lock_table
    (states : TxnId → TransactionState)
    (calls : List LockCall) :
    Ok (runAll states calls) ∧
      (∀ t lid mode e, ((runAll states calls).1.lock t lid mode).2 = .error e →
        ((runAll states calls).1.lock t lid mode).1 = (runAll states calls).1) ∧
      ∀ t lid, states t = .growing →
        ((runAll states calls).1.unlock t lid).2 = .ok true →
        ∀ later lid' mode,
          ((runAll states (calls ++ .unlock t lid :: later)).1.lock
            t lid' mode).2 = .error .lockOnShirinking := by
  have hOk : Ok ((runAll states calls).1, (runAll states calls).2) := (ok_init states).foldl calls
  refine ⟨hOk, ?_, ?_⟩
  · intro t lid mode e hThrows
    rcases hOk.lock t lid mode with ⟨e', hRun⟩ | ⟨m, hRun, -, -⟩
    · exact congrArg Prod.fst hRun
    · cases (congrArg Prod.snd hRun).symm.trans hThrows
  · intro t lid hGrowing hTrue later lid' mode
    have hState : ((runAll states calls).1.txn t).state = .growing ∨
        ((runAll states calls).1.txn t).state = .shrinking :=
      state_foldl (P := fun st => st = .growing ∨ st = .shrinking) (Or.inr rfl) (ok_init states)
        (Or.inl hGrowing) calls
    have hAfter : ((follow (runAll states calls) (.unlock t lid)).1.txn t).state = .shrinking := by
      rcases hOk.unlock t lid with hRun | ⟨m, hRun, hTxn, -⟩
      · cases (congrArg Prod.snd hRun).symm.trans hTrue
      · change (((runAll states calls).1.unlock t lid).1.txn t).state = _
        rw [hRun, hTxn]
        rcases hState with h | h <;> simp [dropLock, setTxn, h]
    have hLater := state_foldl (P := (· = .shrinking)) rfl (hOk.follow (.unlock t lid)) hAfter later
    unfold runAll at hLater ⊢
    rw [List.foldl_append, List.foldl_cons]
    exact congrArg Prod.snd (if_pos hLater)

/- Two readers; one of them gives its lock up and asks again. -/
theorem lock_table_twoReaders :
    ((runAll (fun _ => .growing)
      ([.lockSharedOnTable 1 3, .lockSharedOnTable 2 3] ++
        [.unlock 1 (.ofTable 3)])).1.lock 1 (.ofTable 3) .shared).2 =
      .error .lockOnShirinking :=
  (lock_table _ _).2.2 1 (.ofTable 3) rfl (by decide) [] (.ofTable 3) .shared

end LockManager

end Rmdb
