import Rmdb.Lib.StepSystem
import Rmdb.Lib.VersionHistory
import Rmdb.Mvcc.Engine

/-
  This file keeps the history of a run beside the state of the
  manager: the writes of all row operations that went through,
  the newest first, and the commit timestamps.  The history is
  read off the steps and never feeds back into them.

  A transaction that commits without versions is given the
  last commit timestamp.

  Key definitions include:
    * `Engine.wrote`
    * `Recorded`
    * `Recorded.step`
    * `Recorded.run`
-/

namespace Rmdb

abbrev Hist := VersionHistory.History TxnId Loc (Option RmRecord)

/- A row operation has written if its transaction goes on and
  remembers one more write. -/
def Engine.wrote (e e' : Engine) (t : TxnId) : Prop :=
  e'.state t = .growing ∧
    (e.txn t).writeSet.length < (e'.txn t).writeSet.length

instance (e e' : Engine) (t : TxnId) : Decidable (e.wrote e' t) := by
  unfold Engine.wrote
  infer_instance

/- The history after a step. -/
def Hist.after
    (h : Hist)
    (e e' : Engine) :
    Op → Hist
| .insertRow t x rec _ =>
  if e.wrote e' t then h.write ⟨t, x, some rec⟩ else h
| .updateRow t x newRec _ =>
  if e.wrote e' t then h.write ⟨t, x, some newRec⟩ else h
| .deleteRow t x _ =>
  if e.wrote e' t then h.write ⟨t, x, none⟩ else h
| .commit t => h.stamp t e'.lastCommitTs
| _ => h

structure Recorded where
  eng : Engine
  hist : Hist

namespace Recorded

def init (db : Db) (tabCols : TabName → List ColMeta) : Recorded :=
  ⟨Engine.init db tabCols, .empty⟩

def step (tr : Recorded) (op : Op) : Option Recorded :=
  match tr.eng.step op with
  | none => none
  | some e' => some ⟨e', tr.hist.after tr.eng e' op⟩

def run (tr : Recorded) (ops : List Op) : Option Recorded :=
  StepSystem.run step tr ops

theorem step_eq_some
    {tr tr' : Recorded}
    {op : Op}
    (hStep : tr.step op = some tr') :
    tr.eng.step op = some tr'.eng ∧
      tr'.hist = tr.hist.after tr.eng tr'.eng op := by
  unfold step at hStep
  cases hEng : tr.eng.step op with
  | none => simp [hEng] at hStep
  | some e' =>
    simp only [hEng, Option.some.injEq] at hStep
    subst hStep
    exact ⟨rfl, rfl⟩

/- The engine of a recorded run. -/
theorem run_eng
    {tr tr' : Recorded}
    {ops : List Op}
    (hRun : tr.run ops = some tr') :
    StepSystem.run Engine.step tr.eng ops = some tr'.eng := by
  induction ops generalizing tr with
  | nil =>
    cases hRun
    rfl
  | cons op rest ih =>
    rcases StepSystem.run_cons_eq_some.mp hRun with ⟨tr₁, hStep, hRest⟩
    exact StepSystem.run_cons_eq_some.mpr ⟨tr₁.eng, (step_eq_some hStep).1, ih hRest⟩

end Recorded

end Rmdb
