import Rmdb.Transaction.Crash

/-
  This file settles what the LSN of a page that is written
  back says about its rows.  A row is as the logged operations
  up to this LSN leave it, no later one has changed it, and the
  records of these operations are in the log file before the
  page is written.

  Key definitions include:
    * `Log.Borders`
    * `Sys.Kept`

  Key theorems include:
    * `Log.value_of_last`
    * `Sys.written_image`
    * `Sys.image_kept`
    * `Sys.written_faithful`
-/

namespace Rmdb

open List Log Wal StepSystem

------------
-- The Operations Around An LSN
------------

namespace Log

/- An operation on a row is the last one up to an LSN or the
  first one after it. -/
def Borders
    (x : Loc)
    (lsn : Int)
    (log : List LogRecord)
    (r : LogRecord) : Prop :=
  ∀ a ∈ log, Changes x a →
    ¬ (lsn < a.lsn ∧ a.lsn < r.lsn) ∧
      ¬ (r.lsn < a.lsn ∧ a.lsn ≤ lsn)

instance
    (x : Loc)
    (lsn : Int)
    (log : List LogRecord)
    (r : LogRecord) :
    Decidable (Borders x lsn log r) := by
  unfold Borders
  infer_instance

variable {x : Loc} {lsn : Int} {log : List LogRecord}
variable {r : LogRecord} {d : DataRecord}

/- The last operation on a row leaves its value. -/
theorem value_of_last
    (hSorted : log.Pairwise (fun a b => a.lsn < b.lsn))
    (hMem : r ∈ log)
    (hBody : r.body = .data d)
    (hLoc : d.loc = x)
    (hCovered : r.lsn ≤ lsn)
    (hBorders : Borders x lsn log r) :
    value x (upto lsn log) = d.after := by
  induction log using List.reverseRecOn with
  | nil => cases hMem
  | append_singleton log a ih =>
    rw [pairwise_append] at hSorted
    rcases hSorted with ⟨hSorted, -, hBefore⟩
    unfold upto at ih ⊢
    rw [filter_append]
    rcases mem_append.mp hMem with hEarlier | hHere
    · have hRest := ih hSorted hEarlier
        (fun b hB => hBorders b (mem_append_left _ hB))
      have hLater := hBefore r hEarlier a (by simp)
      by_cases hIn : a.lsn ≤ lsn
      · -- a later operation would be closer to the LSN
        have hOther : ¬ Changes x a := by
          intro hChanges
          exact (hBorders a (by simp) hChanges).2 ⟨hLater, hIn⟩
        rw [filter_cons_of_pos (by simpa using hIn), filter_nil,
          value_concat, applyTo_of_not_changes hOther]
        exact hRest
      · rw [filter_cons_of_neg (by simpa using hIn), filter_nil,
          append_nil]
        exact hRest
    · obtain rfl := mem_singleton.mp hHere
      rw [filter_cons_of_pos (by simpa using hCovered), filter_nil,
        value_concat, applyTo_of_changes hBody hLoc]

/- The operations before one that is not covered yet. -/
theorem value_of_next
    (hUncovered : lsn < r.lsn)
    (hBorders : Borders x lsn log r) :
    value x (upto lsn log) = value x (upto (r.lsn - 1) log) := by
  apply value_filter_congr
  intro a hA hChanges
  have hGap := (hBorders a hA hChanges).1
  simp only [decide_eq_decide]
  omega

end Log

------------
-- Images On Disk
------------

namespace Sys

/- No operation on the row up to the LSN belongs to a
  transaction that has failed or is rolled back. -/
def Kept
    (s : Sys)
    (x : Loc)
    (lsn : Int) : Prop :=
  ∀ r ∈ s.log, Changes x r → r.lsn ≤ lsn →
    (s.phase r.tid).view ≠ .doomed

instance
    (s : Sys)
    (x : Loc)
    (lsn : Int) :
    Decidable (s.Kept x lsn) := by
  unfold Kept
  infer_instance

/- The steps that write a page back. -/
def Writes
    (s : Sys)
    (P : PageId) :
    Act → Prop
| .flushPage Q => Q = P
| .checkpoint => (s.db P.tab).HasPage P.pageNo
| _ => False

section Written

variable {db₀ : Db} {s s' : Sys} {a : Act} {P : PageId} {p : Page}

/- The image that a step writes agrees with the log, and the log
  is written first. -/
theorem written_image
    (hWrite : WriteInv db₀ s)
    (hInv : Inv (inRange db₀) s.view)
    (hOrderly : s.Orderly a)
    (hWrites : s.Writes P a)
    (hStep : s.step a = some s') :
    (s'.disk P.tab).page P.pageNo = s.db.image P ∧
      (s.db.image P).lsn < s'.flushed ∧
      ImageOk s.view P (s.db.image P) := by
  have hBound : (s.db.image P).lsn < s.log.length :=
    (hInv.stamps.bounds P).2
  have hTorn : ∀ u ∈ s.begun, (s.phase u).torn? ≠ some P := by
    cases a with
    | flushPage Q =>
      obtain rfl : Q = P := hWrites
      exact hOrderly
    | checkpoint =>
      intro u hU hTorn
      cases (hOrderly u hU).symm.trans hTorn
    | _ => cases hWrites
  have hImage : ImageOk s.view P (s.db.image P) :=
    imageOk_of_not_torn hInv.status hInv.rows hInv.before hInv.stamps
      (not_torn_of_guard hWrite hTorn)
  cases step_cases hStep with
  | flushPage Q hPage =>
    obtain rfl : Q = P := hWrites
    refine ⟨by simp [Table.setPage], ?_, hImage⟩
    rw [flushLogToDisk_eq]
    change _ < ((if _ then _ else _ : Nat) : Int)
    split <;> omega
  | checkpoint =>
    refine ⟨(if_pos hWrites).symm, ?_, hImage⟩
    change _ < ((s.log.length + 1 : Nat) : Int)
    omega
  | _ => cases hWrites

theorem imageOk_steps
    {c c' : State}
    (hSteps : Steps (inRange db₀) c c')
    (hLsn : p.lsn < c.log.length)
    (hImage : ImageOk c P p) :
    c.log <+: c'.log ∧ ImageOk c' P p := by
  induction hSteps with
  | refl => exact ⟨prefix_rfl, hImage⟩
  | tail _ hStep ih =>
    rcases ih with ⟨hGrown, hImage⟩
    have hLength := hGrown.length_le
    refine ⟨hGrown.trans ?_, hImage.step hStep (by omega)⟩
    cases grows_step hStep with
    | same hLog => rw [hLog]
    | quiet r hLog | data t d st r hLog =>
      rw [hLog]
      exact prefix_append _ _

/- The log grows, and an image that has been written agrees with
  it at all times. -/
theorem image_kept
    {acts : List Act}
    (hWrite : WriteInv db₀ s)
    (hInv : Inv (inRange db₀) s.view)
    (hImage : ImageOk s.view P p)
    (hLsn : p.lsn < s.log.length)
    (hOrderly : StepSystem.Guarded step Orderly s acts)
    (hRun : StepSystem.run step s acts = some s') :
    Inv (inRange db₀) s'.view ∧ s.log <+: s'.log ∧ ImageOk s'.view P p := by
  have hKept := invariant_of_guarded_run
    (fun s' : Sys => (WriteInv db₀ s' ∧ Inv (inRange db₀) s'.view) ∧
      s.log <+: s'.log ∧ ImageOk s'.view P p)
    (fun s₁ a s₂ hNow hOk hStep => by
      rcases hNow with ⟨⟨hWrite, hInv⟩, hGrown, hImage⟩
      have hNext := step_refines hWrite hInv hOk hStep
      have hLength := hGrown.length_le
      have hLsn₁ : p.lsn < s₁.view.log.length := by
        change p.lsn < s₁.log.length
        omega
      rcases imageOk_steps hNext.1 hLsn₁ hImage with ⟨hMore, hKept⟩
      exact ⟨⟨hNext.2, inv_steps hNext.1 hInv⟩, hGrown.trans hMore, hKept⟩)
    ⟨⟨hWrite, hInv⟩, prefix_rfl, hImage⟩ hOrderly hRun
  exact ⟨hKept.1.2, hKept.2⟩

/- What an image that agrees with the log has in a row. -/
theorem row_of_image
    {slotNo : Int}
    (hInv : Inv (inRange db₀) s.view)
    (hImage : ImageOk s.view P p)
    (hKept : s.Kept (slotLoc P slotNo) p.lsn) :
    p.val slotNo = Log.value (slotLoc P slotNo) (Log.upto p.lsn s.log) ∧
      ∀ r ∈ s.log, ∀ d, r.body = .data d → d.loc = slotLoc P slotNo →
        Log.Borders d.loc p.lsn s.log r →
        p.val slotNo = if r.lsn ≤ p.lsn then d.after else d.before := by
  have hOrder : Log.InOrder s.log := hInv.order
  have hValue : p.val slotNo =
      Log.value (slotLoc P slotNo) (Log.upto p.lsn s.log) :=
    hImage slotNo hKept
  refine ⟨hValue, ?_⟩
  intro r hR d hBody hLoc hBorders
  rw [hValue, ← hLoc]
  split
  · rename_i hCovered
    exact value_of_last hOrder.pairwise hR hBody rfl hCovered hBorders
  · -- the row is as the operation will find it
    rename_i hOpen
    rw [value_of_next (not_le.mp hOpen) hBorders]
    refine (hInv.before r hR d hBody ?_).symm
    intro a hA hChanges hLt
    refine hKept a hA (hLoc ▸ hChanges) ?_
    have hGap := (hBorders a hA hChanges).1
    omega

/- A page is written back at some time in a run in which no page
  is written while an operation on it is torn.  Before that the
  log file has got the records of the operations that the LSN of
  the image covers.  The rows of the image are those that these
  operations leave, and an operation next to the LSN has been
  applied exactly if it is covered. -/
theorem written_faithful
    {before later : List Act}
    (hEmpty : db₀.Empty)
    (hBefore : StepSystem.Guarded step Orderly (init db₀) before)
    (hRun : StepSystem.run step (init db₀) before = some s)
    (hWrites : s.Writes P a)
    (hLater : StepSystem.Guarded step Orderly s (a :: later))
    (hEnd : StepSystem.run step s (a :: later) = some s') :
    ∃ s₁, s.step a = some s₁ ∧
      (s₁.disk P.tab).page P.pageNo = s.db.image P ∧
      (∀ r ∈ s'.log, r.lsn ≤ (s.db.image P).lsn →
        r ∈ s₁.log.take s₁.flushed) ∧
      ∀ slotNo, s'.Kept (slotLoc P slotNo) (s.db.image P).lsn →
        (s.db.image P).val slotNo = Log.value (slotLoc P slotNo)
          (Log.upto (s.db.image P).lsn s'.log) ∧
        ∀ r ∈ s'.log, ∀ d, r.body = .data d → d.loc = slotLoc P slotNo →
          Log.Borders d.loc (s.db.image P).lsn s'.log r →
          (s.db.image P).val slotNo =
            if r.lsn ≤ (s.db.image P).lsn then d.after else d.before := by
  rcases inv_run hEmpty hBefore hRun with ⟨hWrite, hInv⟩
  rcases run_cons_eq_some.mp hEnd with ⟨s₁, hStep, hEnd⟩
  rcases written_image hWrite hInv hLater.1 hWrites hStep
    with ⟨hPage, hLsn, hImage⟩
  have hNext := step_refines hWrite hInv hLater.1 hStep
  have hInv₁ := inv_steps hNext.1 hInv
  have hFlushed : s₁.flushed ≤ s₁.log.length := hInv₁.disk.flushed
  have hImage₁ := (imageOk_steps hNext.1 (hInv.stamps.bounds P).2 hImage).2
  have hRest := hLater.2
  rw [hStep] at hRest
  rcases image_kept hNext.2 hInv₁ hImage₁ (by omega) hRest hEnd
    with ⟨hInv', hGrown, hImage'⟩
  have hOrder : Log.InOrder s'.log := hInv'.order
  refine ⟨s₁, hStep, hPage, ?_, ?_⟩
  · intro r hR hLe
    have hTake : s'.log.take s₁.flushed = s₁.log.take s₁.flushed := by
      rcases hGrown with ⟨rest, hRest⟩
      rw [← hRest, take_append_of_le_length hFlushed]
    rw [← hTake, hOrder.mem_take_iff hR]
    omega
  · intro slotNo hKept
    exact row_of_image hInv' hImage' hKept

end Written

/- A page with one row is written back. -/
def oneRowThere : List Act :=
  [.begin, .startInsert 0 firstRow [1],
    .next 0, .next 0, .next 0, .next 0]

def secondInsert : List Act :=
  [.flushPage firstRow.page, .startInsert 0 secondRow [2],
    .next 0, .next 0, .next 0, .next 0]

/- The image has the row whose record it covers, and not the row
  that is inserted after it was written. -/
theorem written_faithful_secondInsert :
    ∃ s s', StepSystem.run step (init twoSlotTables) oneRowThere = some s ∧
      StepSystem.run step s secondInsert = some s' ∧
      (s.db.image firstRow.page).lsn = 0 ∧
      (∃ s₁, s.step (.flushPage firstRow.page) = some s₁ ∧
        ∀ r ∈ s'.log, r.lsn ≤ 0 → r ∈ s₁.log.take s₁.flushed) ∧
      (∃ r ∈ s'.log, r.body = .data (.insert secondRow [2]) ∧ r.lsn = 1) ∧
      (s.db.image firstRow.page).val 0 = some [1] ∧
      (s.db.image firstRow.page).val 1 = none := by
  rcases exists_of_any (o := run step (init twoSlotTables) oneRowThere)
    (p := fun s => (s.db.image firstRow.page).lsn = 0 ∧
      Guarded step Orderly s secondInsert ∧
      (run step s secondInsert).any (fun s' =>
        s'.Kept firstRow 0 ∧ s'.Kept secondRow 0 ∧
        (∃ r ∈ s'.log, r.body = .data (.insert firstRow [1]) ∧
          r.lsn = 0 ∧ Borders firstRow 0 s'.log r) ∧
        ∃ r ∈ s'.log, r.body = .data (.insert secondRow [2]) ∧
          r.lsn = 1 ∧ Borders secondRow 0 s'.log r) = true) (by decide)
    with ⟨s, hRun, hLsn, hOrderly, hAny⟩
  rcases exists_of_any hAny with
    ⟨s', hEnd, hFirst, hSecond, ⟨r, hR, hBody, hZero, hNext⟩,
      ⟨q, hQ, hBody', hOne, hNext'⟩⟩
  have hWrites : s.Writes firstRow.page (.flushPage firstRow.page) := rfl
  rcases written_faithful twoSlotTables_empty (by decide) hRun hWrites
    hOrderly hEnd with ⟨s₁, hStep, -, hFile, hRows⟩
  rw [hLsn] at hFile hRows
  have hThere := (hRows 0 hFirst).2 r hR _ hBody rfl hNext
  have hMissing := (hRows 1 hSecond).2 q hQ _ hBody' rfl hNext'
  rw [hZero] at hThere
  rw [hOne] at hMissing
  exact ⟨s, s', hRun, hEnd, hLsn, ⟨s₁, hStep, hFile⟩,
    ⟨q, hQ, hBody', hOne⟩, hThere, hMissing⟩

/- The page is written back between the heap change of the
  insert and its log record: the image has the row, its LSN does
  not cover the record, and the record is not in the log file. -/
theorem written_before_logged :
    ∃ s, StepSystem.run step (init twoSlotTables)
        [.begin, .startInsert 0 firstRow [1], .flushPage firstRow.page,
          .next 0, .next 0, .next 0, .next 0] = some s ∧
      ∃ r ∈ s.log, r.body = .data (.insert firstRow [1]) ∧
        ((s.disk firstRow.tab).page firstRow.rid.pageNo).lsn < r.lsn ∧
        ((s.disk firstRow.tab).page firstRow.rid.pageNo).val 0 = some [1] ∧
        r ∉ s.log.take s.flushed := by
  exact exists_of_any (by decide)

end Sys

end Rmdb
