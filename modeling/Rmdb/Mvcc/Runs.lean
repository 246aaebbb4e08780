import Rmdb.Mvcc.Roster

/-
  This file says what a step can do, and carries the agreement
  of state and history through whole runs of tame steps.

  Key definitions include:
    * `Engine.Effect`
    * `Engine.Tame`
    * `Engine.Ages`
    * `Agrees`

  Key theorems include:
    * `Engine.step_cases`
    * `Engine.Effect.ages`
    * `Agrees.step`
    * `Recorded.agrees_init`
    * `Recorded.agrees_run`
-/

namespace Rmdb

open Function Consistent Option

------------
-- Steps
------------

namespace Op

/- The transaction of a row operation or a read. -/
def actor? : Op → Option TxnId
| .insertRow t _ _ _ => some t
| .updateRow t _ _ _ => some t
| .deleteRow t _ _ => some t
| .readRow t _ => some t
| .passRow t _ => some t
| .registerRead t _ _ _ _ => some t
| _ => none

def begins? : Op → Option IsolationLevel
| .begin level => some level
| _ => none

/- The change to make, given the record that is seen. -/
def change? (old : RmRecord) :
    Op → Option (TxnId × DataRecord)
| .insertRow t x rec _ => some (t, .insert x rec)
| .updateRow t x newRec _ => some (t, .update x old newRec)
| .deleteRow t x _ => some (t, .delete x old)
| _ => none

end Op

namespace Hist

variable {e e' : Engine} {op : Op} {t : TxnId}
variable {old : RmRecord} {d : DataRecord}

theorem after_change
    (h : Hist)
    (hOp : op.change? old = some (t, d)) :
    h.after e e' op =
      if e.wrote e' t then
        h.write ⟨t, d.loc, d.after⟩
      else
        h := by
  cases op with
  | insertRow t' x rec order | updateRow t' x newRec order | deleteRow t' x order => cases hOp; rfl
  | _ => cases hOp

theorem after_quiet
    (h : Hist)
    (hOp : op.actor? = some t)
    (hNot : ¬ e.wrote e' t) :
    h.after e e' op = h := by
  cases op with
  | insertRow t' x rec order | updateRow t' x newRec order | deleteRow t' x order =>
    cases hOp
    exact if_neg hNot
  | readRow t' x => rfl
  | passRow t' x => rfl
  | registerRead t' tab conds returned order => rfl
  | _ => cases hOp

end Hist

variable {op : Op} {d : DataRecord}

namespace Engine

/- What a step does. -/
inductive Effect (e e' : Engine) :
    Op → Prop where
  | begin (level : IsolationLevel)
      (hNew : e' = e.begin level) :
      Effect e e' (.begin level)
  | quiet (op : Op) (t : TxnId) (x : Loc) (hOp : op.actor? = some t)
      (hQuiet : Quiet t x e e') :
      Effect e e' op
  | change (op : Op) (t : TxnId) (d : DataRecord) (old : RmRecord)
      (hOp : op.change? old = some (t, d)) (hCan : CanChange t d e)
      (hOutcome : Outcome t d e e') :
      Effect e e' op
  | commit (t : TxnId) (e₁ : Engine) (hCommits : Commits t e e₁) (hLast : e' = e₁ ∨
        e.hasVersions t = true ∧ e' = e₁.garbageCollection) :
      Effect e e' (.commit t)
  | abort (t : TxnId) (hRunning : e.Running t)
      (hAbort : e.abort t = some e') :
      Effect e e' (.abort t)
  | collect
      (hNew : e' = e.garbageCollection) :
      Effect e e' .garbageCollection

section Quiet

variable {e e' : Engine} {t : TxnId} {x : Loc}

theorem Quiet.not_wrote (hQuiet : Quiet t x e e') : ¬ e.wrote e' t := by
  rintro ⟨-, hMore⟩
  rw [hQuiet.writeSet] at hMore
  exact absurd hMore (lt_irrefl _)

theorem quiet_of_readRow (hRun : e.readRow t x = some e') : Quiet t x e e' := by
  unfold readRow at hRun
  split at hRun
  · cases hRun
  · rename_i hGrowing
    simp only [ne_eq, not_not] at hGrowing
    split at hRun
    · cases hRun
      exact ⟨Keeps.refl t _, hGrowing, Or.inl hGrowing,
        Db.Edits.refl, rfl, rfl, id, fun _ => Or.inl rfl, rfl, rfl, rfl, rfl⟩
    · cases hLock : e.lockShared t x with
      | none =>
        simp only [hLock, some.injEq] at hRun
        subst hRun
        exact quiet_fail hGrowing x .lockConflict
      | some e₁ =>
        simp only [hLock, some.injEq] at hRun
        subst hRun
        unfold lockShared at hLock
        split at hLock
        · cases hLock
          refine ⟨⟨rfl, rfl, rfl, rfl, rfl, rfl, fun _ _ => rfl, rfl, rfl, rfl, ?_⟩, hGrowing,
            Or.inl hGrowing, Db.Edits.refl, rfl, rfl, id, fun _ => Or.inl rfl, rfl, rfl, rfl, rfl⟩
          intro y u hU hMem
          simp only [update_apply] at hMem
          split at hMem
          · rename_i hY
            rw [hY]
            exact (List.mem_insert_iff.mp hMem).resolve_left hU
          · exact hMem
        · cases hLock

theorem quiet_of_passRow (hRun : e.passRow t x = some e') : Quiet t x e e' := by
  unfold passRow at hRun
  split at hRun
  · cases hRun
  · rename_i hGrowing
    simp only [ne_eq, not_not] at hGrowing
    cases hLock : e.lockRow t x with
    | none =>
      simp only [hLock, some.injEq] at hRun
      subst hRun
      exact quiet_fail hGrowing x .lockConflict
    | some e₁ =>
      simp only [hLock, some.injEq] at hRun
      subst hRun
      rcases locked_of_lockRow hLock with ⟨locks, rfl, hLocked⟩
      exact hLocked.quiet hGrowing

theorem quiet_of_registerRead
    {tab : TabName}
    {conds : RmRecord → Bool}
    {returned : List Rid}
    {order : List Loc}
    (hRun : e.registerRead t tab conds returned order = some e')
    (x : Loc) :
    Quiet t x e e' := by
  unfold registerRead at hRun
  split at hRun
  · cases hRun
  · rename_i hGrowing
    simp only [ne_eq, not_not] at hGrowing
    have hSsi : ∀ ssi, Quiet t x e { e with ssi := ssi } :=
      fun ssi => ⟨.same rfl, hGrowing, Or.inl hGrowing, Db.Edits.refl, rfl, rfl, id,
        fun _ => Or.inl rfl, rfl, rfl, rfl, rfl⟩
    split at hRun
    · cases hRun
      exact hSsi e.ssi
    · split at hRun
      · cases hRun
      · split at hRun
        · cases hRun
          exact hSsi _
        · rename_i ssi hError
          cases hRun
          have hGrowing' : ({ e with ssi := ssi } : Engine).state t =
                .growing := hGrowing
          have hFail := quiet_fail hGrowing' x .ssiConflict
          have hKeeps : Keeps t e { e with ssi := ssi } := .same rfl
          exact { hFail with keeps := hKeeps.trans hFail.keeps, growing := hGrowing }

end Quiet

section Cases

variable {e e' : Engine} {t : TxnId} {x : Loc}
variable {order : List TxnId}

theorem growing_of_ready
    (hReady : ¬ (e.state t ≠ .growing ∨ ¬ e.validOrder t order)) :
    e.state t = .growing := by
  simp only [ne_eq, not_or, not_not] at hReady
  exact hReady.1

variable (hStart : e.Running t → e.isMvccTxn t = true → 0 ≤ e.startTs t)
include hStart

theorem effect_insertRow {rec : RmRecord}
    (hRun : e.insertRow t x rec order = some e') :
    Effect e e' (.insertRow t x rec order) := by
  have hGrowing : e.state t = .growing := by
    unfold insertRow at hRun
    split at hRun
    · cases hRun
    · rename_i hReady
      exact growing_of_ready hReady
  rcases insertRow_outcome (hStart (Or.inl hGrowing)) hRun with
    hQuiet | ⟨hCan, hOutcome⟩
  · exact .quiet _ t x rfl hQuiet
  · exact .change _ t (.insert x rec) [] rfl hCan hOutcome

theorem effect_updateRow
    {newRec : RmRecord}
    (hRun : e.updateRow t x newRec order = some e') :
    Effect e e' (.updateRow t x newRec order) := by
  have hGrowing : e.state t = .growing := by
    unfold updateRow at hRun
    split at hRun
    · cases hRun
    · rename_i hReady
      exact growing_of_ready hReady
  rcases updateRow_outcome (hStart (Or.inl hGrowing)) hRun with
    hQuiet | ⟨old, hCan, hOutcome⟩
  · exact .quiet _ t x rfl hQuiet
  · exact .change _ t (.update x old newRec) old rfl hCan hOutcome

theorem effect_deleteRow
    (hRun : e.deleteRow t x order = some e') :
    Effect e e' (.deleteRow t x order) := by
  have hGrowing : e.state t = .growing := by
    unfold deleteRow at hRun
    split at hRun
    · cases hRun
    · rename_i hReady
      exact growing_of_ready hReady
  rcases deleteRow_outcome (hStart (Or.inl hGrowing)) hRun with
    hQuiet | ⟨rec, hCan, hOutcome⟩
  · exact .quiet _ t x rfl hQuiet
  · exact .change _ t (.delete x rec) rec rfl hCan hOutcome

omit hStart

/- All that a step can do. -/
theorem step_cases
    (hStart : ∀ t, e.Running t → e.isMvccTxn t = true → 0 ≤ e.startTs t)
    (hStep : e.step op = some e') :
    Effect e e' op := by
  cases op with
  | begin level => exact .begin level (some.inj hStep).symm
  | insertRow t x rec order => exact effect_insertRow (hStart t) hStep
  | updateRow t x newRec order => exact effect_updateRow (hStart t) hStep
  | deleteRow t x order => exact effect_deleteRow (hStart t) hStep
  | readRow t x => exact .quiet _ t x rfl (quiet_of_readRow hStep)
  | passRow t x => exact .quiet _ t x rfl (quiet_of_passRow hStep)
  | registerRead t tab conds returned order =>
    exact .quiet _ t ⟨tab, ⟨0, 0⟩⟩ rfl (quiet_of_registerRead hStep _)
  | commit t =>
    rcases commit_cases hStep with ⟨e₁, hCommits, hLast⟩
    exact .commit t e₁ hCommits hLast
  | abort t =>
    have hRun : e.abortTxn t = some e' := hStep
    unfold abortTxn at hRun
    split at hRun
    · rename_i hState
      exact .abort t (Or.inl hState) hRun
    · rename_i reason hState
      exact .abort t (Or.inr ⟨reason, hState⟩) hRun
    · cases hRun
  | garbageCollection => exact .collect (some.inj hStep).symm

end Cases

/- The manager's own tests are enough for a step: an MVCC
  transaction does not begin next to uncommitted writes
  without versions, and a change respects the owners that the
  manager does not ask for. -/
def Tame (e : Engine) (op : Op) : Prop :=
  match op.begins?, op.change? [] with
  | some level, _ =>
    level.mvcc = true → ∀ n < e.nextTxnId, ¬ e.Plain n
  | none, some (t, d) =>
    e.state t = .growing →
      (d.inserted = true → e.db.record d.loc = none) →
        Respects t d e
  | none, none => True

instance (e : Engine) (op : Op) : Decidable (e.Tame op) := by
  unfold Tame
  split <;> infer_instance

theorem Tame.respects
    {e : Engine}
    {old : RmRecord}
    {t : TxnId}
    (hTame : e.Tame op)
    (hOp : op.change? old = some (t, d))
    (hCan : CanChange t d e) :
    Respects t d e := by
  have hNew : d.inserted = true → e.db.record d.loc = none := fun hNew => (hCan.place hNew).1
  -- the record that is seen does not matter
  cases op with
  | insertRow t' x rec order =>
    cases hOp
    exact hTame hCan.growing hNew
  | updateRow t' x newRec order | deleteRow t' x order =>
    cases hOp
    have hAny := hTame hCan.growing (fun h => by cases h)
    exact ⟨hAny.free, hAny.new, hAny.owner, hAny.mode⟩
  | _ => cases hOp

/- The transactions that have begun are numbered. -/
theorem Tame.no_plain
    {e : Engine}
    {level : IsolationLevel}
    (hTame : e.Tame (.begin level))
    (hIds : ∀ t : TxnId, t < 0 ∨ e.nextTxnId ≤ t → e.txn t = MvccTxn.unused)
    (hLevel : level.mvcc = true)
    (t : TxnId) :
    ¬ e.Plain t := by
  intro hPlain
  by_cases hOut : t < 0 ∨ e.nextTxnId ≤ t
  · exact not_running_of_unused (hIds t hOut) hPlain.running
  · have hNumber : ∀ i : Int, ¬ (i < 0 ∨ (e.nextTxnId : Int) ≤ i) →
        ∃ n : Nat, n < e.nextTxnId ∧ (n : Int) = i := by
      intro i hI
      exact ⟨i.toNat, by omega, by omega⟩
    rcases hNumber t hOut with ⟨n, hN, rfl⟩
    exact hTame hLevel n hN hPlain

end Engine

/- The changes of a tame run. -/
theorem Consistent.writable
    {base : Loc → Option RmRecord}
    {floor : Int}
    {e : Engine}
    {h : Hist}
    {op : Op}
    {t : TxnId}
    {d : DataRecord}
    {old : RmRecord}
    (hInv : Consistent base floor none e h)
    (hRoster : e.Roster)
    (hTame : e.Tame op)
    (hOp : op.change? old = some (t, d))
    (hCan : Engine.CanChange t d e) :
    Writable base floor h t d e :=
  ⟨hInv, hCan, hTame.respects hOp hCan, hRoster.countsMvcc⟩

------------
-- What Steps Do Not Change
------------

namespace Engine

/- Transactions that have begun keep their fixed data. -/
structure Ages (e e' : Engine) : Prop where
  began : ∀ t, e.state t ≠ .default → e'.state t ≠ .default
  level : ∀ t, e.state t ≠ .default → (e'.txn t).isolationLevel = (e.txn t).isolationLevel
  start : ∀ t, e.state t ≠ .default → e'.startTs t = e.startTs t
  committed : ∀ t, e.state t = .committed → e'.txn t = e.txn t
  aborted : ∀ t, e.state t = .aborted → e'.state t = .aborted
  last : e.lastCommitTs ≤ e'.lastCommitTs

section Ages

variable {e e' e'' : Engine} {t : TxnId} {x : Loc} {op : Op}

theorem Ages.refl
    (e : Engine) :
    Ages e e := ⟨fun _ h => h, fun _ _ => rfl, fun _ _ => rfl, fun _ _ => rfl,
    fun _ h => h, le_refl _⟩

theorem Ages.trans
    (hFirst : Ages e e')
    (hSecond : Ages e' e'') :
    Ages e e'' where
  began := fun t hT => hSecond.began t (hFirst.began t hT)
  level := fun t hT => (hSecond.level t (hFirst.began t hT)).trans (hFirst.level t hT)
  start := fun t hT => (hSecond.start t (hFirst.began t hT)).trans (hFirst.start t hT)
  committed := fun t hT => by
    have hSame := hFirst.committed t hT
    have hState : e'.state t = .committed := by
      unfold Engine.state at hT ⊢
      rw [hSame]
      exact hT
    exact (hSecond.committed t hState).trans hSame
  aborted := fun t hT => hSecond.aborted t (hFirst.aborted t hT)
  last := le_trans hFirst.last hSecond.last

theorem Acts.ages (hActs : Acts t x e e') :
    Ages e e' where
  began := fun u hU => by
    by_cases hT : u = t
    · subst hT
      rcases hActs.running with h | ⟨reason, h⟩
      · simp [h]
      · simp [h]
    · rw [hActs.state_other hT]
      exact hU
  level := fun u _ => by
    by_cases hT : u = t
    · rw [hT, hActs.keeps.level]
    · rw [hActs.txn hT]
  start := fun u _ => hActs.keeps.start u
  committed := fun u hU => by
    refine hActs.txn ?_
    rintro rfl
    cases hActs.growing.symm.trans hU
  aborted := fun u hU => by
    rw [hActs.state_other]
    · exact hU
    · rintro rfl
      cases hActs.growing.symm.trans hU
  last := le_of_eq hActs.keeps.lastCommitTs.symm

theorem Leaves.ages
    (hEnd : Leaves t e e')
    (hBegan : e'.state t ≠ .default)
    (hLevel : (e'.txn t).isolationLevel = (e.txn t).isolationLevel)
    (hLast : e.lastCommitTs ≤ e'.lastCommitTs) :
    Ages e e' where
  began := fun u hU => by
    by_cases hT : u = t
    · rw [hT]
      exact hBegan
    · rw [hEnd.state_other hT]
      exact hU
  level := fun u _ => by
    by_cases hT : u = t
    · rw [hT, hLevel]
    · rw [hEnd.others u hT]
  start := fun u _ => hEnd.startTs u
  committed := fun u hU => by
    refine hEnd.others u ?_
    rintro rfl
    rcases hEnd.running with h | ⟨reason, h⟩
    · cases h.symm.trans hU
    · cases h.symm.trans hU
  aborted := fun u hU => by
    rw [hEnd.state_other]
    · exact hU
    · rintro rfl
      rcases hEnd.running with h | ⟨reason, h⟩
      · cases h.symm.trans hU
      · cases h.symm.trans hU
  last := hLast

theorem ages_abort
    (hRunning : e.Running t)
    (hRun : e.abort t = some e') :
    Ages e e' := by
  rcases ends_of_abort hRun with ⟨e₁, hUnwinds, hEnds⟩
  refine (leaves_of_ends hRunning hUnwinds hEnds).ages ?_ ?_ ?_
  · rw [hEnds.state]
    simp
  · rw [hEnds.level, hUnwinds.txn]
  · rw [hEnds.lastCommitTs, hUnwinds.lastCommitTs]

theorem ages_commits (hCommits : Commits t e e') : Ages e e' := by
  refine (leaves_of_commits hCommits).ages ?_ hCommits.level ?_
  · rw [hCommits.state]
    simp
  · rw [hCommits.lastCommitTs]
    split
    · omega
    · exact le_refl _

theorem ages_begin (hUnused : e.txn e.nextTxnId = MvccTxn.unused)
    (level : IsolationLevel) : Ages e (e.begin level) := by
  have hOther : ∀ u, e.state u ≠ .default → (e.begin level).txn u = e.txn u := by
    intro u hU
    have hNe : u ≠ e.nextTxnId := by
      rintro rfl
      exact hU (by simp [Engine.state, hUnused, MvccTxn.unused])
    unfold Engine.begin
    split
    · exact update_of_ne hNe _ _
    · exact update_of_ne hNe _ _
  constructor
  · intro u hU
    unfold Engine.state
    rw [hOther u hU]
    exact hU
  · intro u hU
    rw [hOther u hU]
  · intro u hU
    unfold Engine.startTs
    rw [hOther u hU]
  · intro u hU
    exact hOther u (by simp [hU])
  · intro u hU
    unfold Engine.state
    rw [hOther u (by simp [hU])]
    exact hU
  · unfold Engine.begin
    split
    · exact le_refl _
    · exact le_refl _

theorem Outcome.ages
    (hCan : CanChange t d e)
    (hOutcome : Outcome t d e e') :
    Ages e e' := by
  cases hOutcome with
  | done hDone => exact (done_acts hCan hDone).ages
  | rejected hRejected _ => exact (rejected_acts hCan hRejected).ages
  | aborted e₁ hRejected hAbort =>
    have hActs := rejected_acts hCan hRejected
    exact hActs.ages.trans (ages_abort hActs.running hAbort)

theorem Effect.ages (hUnused : e.txn e.nextTxnId = MvccTxn.unused)
    (hEffect : Effect e e' op) : Ages e e' := by
  cases hEffect with
  | begin level hNew =>
    subst hNew
    exact ages_begin hUnused level
  | quiet _ t x _ hQuiet => exact hQuiet.acts.ages
  | change _ t d old _ hCan hOutcome => exact hOutcome.ages hCan
  | commit t e₁ hCommits hLast =>
    rcases hLast with rfl | ⟨-, rfl⟩
    · exact ages_commits hCommits
    · exact (ages_commits hCommits).trans ⟨fun _ h => h, fun _ _ => rfl, fun _ _ => rfl,
          fun _ _ => rfl, fun _ h => h, le_refl _⟩
  | abort t hRunning hAbort => exact ages_abort hRunning hAbort
  | collect hNew =>
    subst hNew
    exact ⟨fun _ h => h, fun _ _ => rfl, fun _ _ => rfl, fun _ _ => rfl, fun _ h => h, le_refl _⟩

end Ages

------------
-- The Roster
------------

namespace Roster

variable {e e' : Engine} {t : TxnId} {x : Loc}

theorem acts
    (hRoster : e.Roster)
    (hActs : Acts t x e e') :
    e'.Roster := hRoster.same hActs.running_iff hActs.keeps.mvcc
    hActs.keeps.start hActs.keeps.runningTxns hActs.keeps.active hActs.keeps.lastCommitTs

theorem abort
    (hRoster : e.Roster)
    (hRunning : e.Running t)
    (hRun : e.abort t = some e') :
    e'.Roster := by
  rcases hRoster with ⟨l, hL⟩
  rcases ends_of_abort hRun with ⟨e₁, hUnwinds, hEnds⟩
  have hMvcc : e₁.isMvccTxn t = e.isMvccTxn t := by
    unfold isMvccTxn
    rw [hUnwinds.txn]
  have hStart : e₁.startTs t = e.startTs t := by
    unfold startTs
    rw [hUnwinds.txn]
  refine leaves ⟨l, hL⟩ (leaves_of_ends hRunning hUnwinds hEnds)
    e.runningTxns rfl hL.ok ?_ ?_ ?_
  · rw [hEnds.lastCommitTs, hUnwinds.lastCommitTs]
    exact hL.commit
  · rw [hEnds.runningTxns, hMvcc, hStart, hUnwinds.runningTxns]
  · rw [hEnds.active, hMvcc, hUnwinds.active]

theorem commits
    (hRoster : e.Roster)
    (hCommits : Commits t e e') :
    e'.Roster := by
  rcases hRoster with ⟨l, hL⟩
  have hLeaves := leaves_of_commits hCommits
  cases hVersions : e.hasVersions t with
  | true =>
    have hTxns := hCommits.runningTxns
    have hLast := hCommits.lastCommitTs
    rw [hVersions, if_pos rfl] at hTxns hLast
    refine leaves ⟨l, hL⟩ hLeaves (e.runningTxns.updateCommitTs (e.lastCommitTs + 1)) rfl
      (Watermark.ok_updateCommitTs hL.ok _) ?_ hTxns hCommits.active
    rw [hLast]
    rfl
  | false =>
    have hTxns := hCommits.runningTxns
    have hLast := hCommits.lastCommitTs
    rw [hVersions, if_neg (by simp)] at hTxns hLast
    have hLevel := (hasVersions_eq_false.mp hVersions).1
    refine leaves ⟨l, hL⟩ hLeaves e.runningTxns rfl hL.ok ?_ ?_ hCommits.active
    · rw [hLast]
      exact hL.commit
    · rw [hLevel, if_neg (by simp)]
      exact hTxns

theorem collect (hRoster : e.Roster) :
    e.garbageCollection.Roster := hRoster.same (fun _ => Iff.rfl) (fun _ => rfl)
    (fun _ => rfl) rfl rfl rfl

theorem begins
    (hRoster : e.Roster)
    (level : IsolationLevel)
    (hUnused : e.txn e.nextTxnId = MvccTxn.unused) :
    (e.begin level).Roster := by
  have hIdle := not_running_of_unused hUnused
  cases hMvcc : level.mvcc with
  | true =>
    refine hRoster.joins
      { MvccTxn.unused with
        isolationLevel := level,
        state := .growing,
        startTs := e.lastCommitTs } hIdle rfl hMvcc ?_ ?_ ?_ ?_
    all_goals simp [Engine.begin, hMvcc, setTxn]
  | false =>
    have hTxn : (e.begin level).txn = update e.txn e.nextTxnId
          { MvccTxn.unused with
            isolationLevel := level, state := .growing } := by
      simp [Engine.begin, hMvcc, setTxn]
    have hSame : (e.begin level).runningTxns = e.runningTxns ∧
        (e.begin level).activeMvccTxnCount = e.activeMvccTxnCount ∧
        (e.begin level).lastCommitTs = e.lastCommitTs := by
      simp [Engine.begin, hMvcc, setTxn]
    rcases hSame with ⟨hTxns, hActive, hLast⟩
    rcases hRoster with ⟨l, hL⟩
    have hNot : (e.nextTxnId : TxnId) ∉ l := fun hMem => hIdle ((hL.mem _).mp hMem).1
    have hRest : l.map (e.begin level).startTs = l.map e.startTs := by
      apply List.map_congr_left
      intro u hU
      unfold startTs
      rw [hTxn, update_of_ne]
      exact fun hN => hNot (hN ▸ hU)
    refine ⟨l, hL.nodup, ?_, ?_, ?_, ?_, ?_⟩
    · intro u
      rw [hL.mem u]
      by_cases hU : u = e.nextTxnId
      · subst hU
        simp [hIdle, isMvccTxn, hTxn, hMvcc]
      · simp [Running, Engine.state, isMvccTxn, hTxn, update_of_ne hU]
    · rw [hActive]
      exact hL.count
    · rw [hTxns, hRest]
      exact hL.reads
    · rw [hTxns]
      exact hL.ok
    · rw [hTxns, hLast]
      exact hL.commit

end Roster

end Engine

------------
-- Whole Runs
------------

/- State and history agree, and the books are right. -/
def Agrees
    (base : Loc → Option RmRecord)
    (e : Engine)
    (h : Hist) :
    Prop :=
  (∃ floor, Consistent base floor none e h) ∧ e.Roster

namespace Agrees

variable {base : Loc → Option RmRecord}
variable {e e' : Engine} {h : Hist} {t : TxnId} {x : Loc}
variable {v : Option RmRecord}

theorem abort
    {rejected : Option TxnId}
    {floor : Int}
    (hInv : Consistent base floor rejected e h)
    (hRoster : e.Roster)
    (hRejected : rejected = none ∨ rejected = some t)
    (hRunning : e.Running t)
    (hRun : e.abort t = some e') :
    Agrees base e' h := by
  exact ⟨⟨floor, hInv.abort hRejected hRunning hRun⟩, hRoster.abort hRunning hRun⟩

variable (hAgrees : Agrees base e h)
include hAgrees

theorem start_nonneg
    (hRunning : e.Running t)
    (hMvcc : e.isMvccTxn t = true) :
    0 ≤ e.startTs t := by
  rcases hAgrees with ⟨⟨floor, hInv⟩, -⟩
  exact le_trans hInv.floorStart (hInv.starts t hRunning hMvcc).1

theorem quiet (hQuiet : Engine.Quiet t x e e') : Agrees base e' h := by
  rcases hAgrees with ⟨⟨floor, hInv⟩, hRoster⟩
  exact ⟨⟨floor, hInv.quiet hQuiet⟩, hRoster.acts hQuiet.acts⟩

theorem change
    (hCan : Engine.CanChange t d e)
    (hRespects : Engine.Respects t d e)
    (hOutcome : Engine.Outcome t d e e') :
    Agrees base e' (if e.wrote e' t then h.write ⟨t, d.loc, d.after⟩
        else h) := by
  rcases hAgrees with ⟨⟨floor, hInv⟩, hRoster⟩
  have hMay : Writable base floor h t d e := ⟨hInv, hCan, hRespects, hRoster.countsMvcc⟩
  cases hOutcome with
  | done hDone =>
    have hWrote : e.wrote e' t := by
      refine ⟨hDone.state, ?_⟩
      rw [hDone.writeSet]
      simp
    have hActs := done_acts hCan hDone
    rw [if_pos hWrote]
    exact ⟨⟨floor, hMay.done hDone⟩, hRoster.acts hActs⟩
  | rejected hRejected hStays =>
    have hNot : ¬ e.wrote e' t := fun hWrote => hRejected.failed hWrote.1
    have hActs := rejected_acts hCan hRejected
    rw [if_neg hNot]
    refine ⟨⟨floor, hMay.reject hRejected ?_⟩, hRoster.acts hActs⟩
    intro _ hVersioned
    rw [Bool.eq_false_iff]
    intro hInserted
    have hNone := (hStays (hCan.place hInserted).2).2 hInserted
    cases hVersioned.symm.trans hNone
  | aborted e₁ hRejected hAbort =>
    have hActs := rejected_acts hCan hRejected
    have hAfter := abort (hMay.broken hRejected) (hRoster.acts hActs) (Or.inr rfl)
      hActs.running hAbort
    have hNot : ¬ e.wrote e' t := by
      rintro ⟨hGrowing, -⟩
      cases hGrowing.symm.trans (Engine.state_of_abort hAbort)
    rw [if_neg hNot]
    exact hAfter

theorem collect : Agrees base e.garbageCollection h := by
  rcases hAgrees with ⟨⟨floor, hInv⟩, hRoster⟩
  have hFloor := hRoster.le_watermark (fun t hR hM => (hInv.starts t hR hM).1) hInv.floorLast
  have hLast := hRoster.watermark_le_last (fun t hR hM => (hInv.starts t hR hM).2)
  exact ⟨⟨_, hInv.collect hFloor hLast (fun t hR hM => hRoster.watermark_le_start hR hM)⟩,
    hRoster.collect⟩

theorem commits
    (hCommits : Engine.Commits t e e') :
    Agrees base e' (h.stamp t e'.lastCommitTs) := by
  rcases hAgrees with ⟨⟨floor, hInv⟩, hRoster⟩
  exact ⟨⟨_, hInv.commit hCommits⟩, hRoster.commits hCommits⟩

theorem begins (level : IsolationLevel)
    (hAlone : level.mvcc = true → ∀ u, ¬ e.Plain u) :
    Agrees base (e.begin level) h := by
  rcases hAgrees with ⟨⟨floor, hInv⟩, hRoster⟩
  exact ⟨⟨floor, hInv.begin level hAlone⟩, hRoster.begins level
      (hInv.ids e.nextTxnId (Or.inr (le_refl _)))⟩

/- One step of a tame run. -/
theorem step (hTame : e.Tame op)
    (hStep : e.step op = some e') : Agrees base e' (h.after e e' op) := by
  have hEffect := Engine.step_cases (fun t hR hM => hAgrees.start_nonneg hR hM) hStep
  cases hEffect with
  | begin level hNew =>
    subst hNew
    rcases hAgrees.1 with ⟨floor, hInv⟩
    exact hAgrees.begins level (fun hLevel => hTame.no_plain hInv.ids hLevel)
  | quiet _ t x hOp hQuiet =>
    rw [Hist.after_quiet h hOp hQuiet.not_wrote]
    exact hAgrees.quiet hQuiet
  | change _ t d old hOp hCan hOutcome =>
    rw [Hist.after_change h hOp]
    exact hAgrees.change hCan (hTame.respects hOp hCan) hOutcome
  | commit t e₁ hCommits hLast =>
    rcases hLast with rfl | ⟨-, rfl⟩
    · exact hAgrees.commits hCommits
    · exact (hAgrees.commits hCommits).collect
  | abort t hRunning hAbort =>
    rcases hAgrees with ⟨⟨floor, hInv⟩, hRoster⟩
    exact abort hInv hRoster (Or.inl rfl) hRunning hAbort
  | collect hNew =>
    subst hNew
    exact hAgrees.collect

end Agrees

namespace Recorded

/- A run starts with the records of the database. -/
theorem agrees_init
    (db : Db)
    (tabCols : TabName → List ColMeta) :
    Agrees db.record (init db tabCols).eng (init db tabCols).hist := by
  have hIdle : ∀ t, ¬ (Engine.init db tabCols).Running t :=
    fun t => Engine.not_running_of_unused rfl
  have hOwns : ∀ t x, ¬ (Engine.init db tabCols).Owns t x := by
    rintro t x ⟨entry, hEntry, -⟩
    cases hEntry
  refine ⟨⟨0, le_refl _, le_refl _, fun _ _ => rfl, ?_, ?_, ?_, ?_, ?_, ?_, ?_, ?_⟩, ?_⟩
  · intro t hRunning
    exact absurd hRunning (hIdle t)
  · intro y
    simp [init, Engine.init]
  · intro x t hLock
    cases hLock
  · intro t hRunning
    exact absurd hRunning (hIdle t)
  · intro t u hPlain
    exact absurd hPlain.running (hIdle t)
  · intro x t hO
    exact absurd hO (hOwns t x)
  · intro x
    constructor
    · intro entry t hEntry
      cases hEntry
    · intro t hO
      exact absurd hO (hOwns t x)
    · intro _
      refine ⟨fun _ _ => rfl, ?_, ?_, ?_⟩
      · intro hNone ts _
        exact hNone
      · rintro c ⟨w, hW, -⟩
        simp [init, VersionHistory.History.empty] at hW
      · intro entry hEntry
        cases hEntry
    · intro t hPlain
      exact absurd hPlain.plain.running (hIdle t)
  · constructor
    · intro w hW
      simp [init, VersionHistory.History.empty] at hW
    · intro w hW
      simp [init, VersionHistory.History.empty] at hW
    · intro t c hC
      cases hC
    · intro t hState
      cases hState
    · intro w hW
      simp [init, VersionHistory.History.empty] at hW
    · intro t x hState
      cases hState
    · exact List.Pairwise.nil
  · refine ⟨[], List.nodup_nil, ?_, rfl, List.Perm.refl _, Watermark.ok_init 0, rfl⟩
    intro t
    simp [hIdle t, init]

theorem agrees_run
    {base : Loc → Option RmRecord}
    {tr tr' : Recorded}
    {ops : List Op}
    (hInit : Agrees base tr.eng tr.hist)
    (hTame : StepSystem.Guarded step (fun tr op => tr.eng.Tame op) tr ops)
    (hRun : tr.run ops = some tr') :
    Agrees base tr'.eng tr'.hist := by
  refine StepSystem.invariant_of_guarded_run
    (fun tr => Agrees base tr.eng tr.hist) ?_ hInit hTame hRun
  intro tr op tr' hAgrees hTame hStep
  rcases step_eq_some hStep with ⟨hEng, hHist⟩
  rw [hHist]
  exact hAgrees.step hTame hEng

end Recorded

end Rmdb
