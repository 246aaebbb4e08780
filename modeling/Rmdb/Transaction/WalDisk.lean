import Rmdb.Transaction.WalContent
import Mathlib.Logic.Relation

/-
  This file shows what the write-ahead machine keeps true of
  page LSNs and of the page images on disk: an image on disk
  is covered by the log file, and outside the rows of doomed
  transactions it holds what the log says up to its LSN.

  Key definitions include:
    * `Wal.StampInv`
    * `Wal.DiskInv`
    * `Wal.RangeInv`
    * `Wal.Inv`

  Key theorems include:
    * `Wal.stampInv_step`
    * `Wal.diskInv_step`
    * `Wal.inv_step`
-/

namespace Rmdb

open Function List Log

namespace Wal

------------
-- Page LSNs
------------

/- Every logged change of a page is covered by the page LSN or
  is the one change of the page that awaits its stamp. -/
structure StampInv (c : State) : Prop where
  bounds : ∀ P, -1 ≤ c.pageLsn P ∧ c.pageLsn P < c.log.length
  covered : ∀ r ∈ c.log, ∀ d, r.body = .data d → r.lsn ≤ c.pageLsn d.loc.page ∨
        c.status r.tid = .op d (.logged r.lsn)
  ahead : ∀ t d lsn, c.status t = .op d (.logged lsn) → c.pageLsn d.loc.page < lsn ∧
      ∀ r ∈ c.log, ∀ e, r.body = .data e → e.loc.page = d.loc.page → r.lsn ≤ lsn

variable {c c' : State} {t : TxnId} {st : Status}

/- Steps that move no change into or out of its logged stage. -/
theorem StampInv.frame
    (hInv : StampInv c)
    (hLog : c'.log = c.log)
    (hLsn : c'.pageLsn = c.pageLsn)
    (hStatus : c'.status = update c.status t st)
    (hOld : ∀ d lsn, c.status t ≠ .op d (.logged lsn))
    (hNew : ∀ d lsn, st ≠ .op d (.logged lsn)) :
    StampInv c' := by
  have hIff : ∀ u d lsn, c'.status u = .op d (.logged lsn) ↔ c.status u = .op d (.logged lsn) := by
    intro u d lsn
    rw [hStatus]
    by_cases hU : u = t
    · subst hU
      rw [update_self]
      exact ⟨fun h => absurd h (hNew d lsn), fun h => absurd h (hOld d lsn)⟩
    · rw [update_of_ne hU]
  constructor
  · intro P
    rw [hLog, hLsn]
    exact hInv.bounds P
  · intro r hR d hBody
    rw [hLog] at hR
    rw [hLsn, hIff]
    exact hInv.covered r hR d hBody
  · intro u d lsn hU
    rw [hIff] at hU
    rw [hLog, hLsn]
    exact hInv.ahead u d lsn hU

/- A record that changes no row is appended. -/
theorem StampInv.quiet
    {r : LogRecord}
    (hInv : StampInv c)
    (hLog : c'.log = c.log ++ [r])
    (hNo : ∀ d, r.body ≠ .data d)
    (hLsn : c'.pageLsn = c.pageLsn)
    (hIff : ∀ u d lsn, c'.status u = .op d (.logged lsn) ↔
      c.status u = .op d (.logged lsn)) :
    StampInv c' := by
  constructor
  · intro P
    have := hInv.bounds P
    rw [hLog, hLsn, length_append]
    push_cast
    omega
  · intro a hA d hBody
    rw [hLog] at hA
    rw [hLsn, hIff]
    rcases mem_concat.mp hA with hAOld | rfl
    · exact hInv.covered a hAOld d hBody
    · exact absurd hBody (hNo d)
  · intro u d lsn hU
    rw [hIff] at hU
    have hAhead := hInv.ahead u d lsn hU
    rw [hLog, hLsn]
    refine ⟨hAhead.1, ?_⟩
    intro a hA e hBody
    rcases mem_concat.mp hA with hAOld | rfl
    · exact hAhead.2 a hAOld e hBody
    · exact absurd hBody (hNo e)

variable {d : DataRecord}

/- A change is logged on a page with no change unstamped. -/
theorem StampInv.log
    {prevLsn : Int}
    (hInv : StampInv c)
    (hOrder : Log.InOrder c.log)
    (hOld : ∀ e lsn, c.status t ≠ .op e (.logged lsn))
    (hFree : ∀ u e lsn, c.status u = .op e (.logged lsn) →
      e.loc.page ≠ d.loc.page) :
    StampInv ((c.append t prevLsn (.data d)).setStatus t
      (.op d (.logged c.log.length))) := by
  constructor
  · intro P
    have := hInv.bounds P
    simp only [State.setStatus, State.append, length_append, length_singleton]
    push_cast
    omega
  · intro r hR e hBody
    simp only [State.setStatus, State.append] at hR ⊢
    rcases mem_concat.mp hR with hROld | rfl
    · rcases hInv.covered r hROld e hBody with h | h
      · exact Or.inl h
      · right
        have hNe : r.tid ≠ t := by
          intro hT
          rw [hT] at h
          exact hOld e r.lsn h
        rw [update_of_ne hNe]
        exact h
    · obtain rfl : d = e := by simpa using hBody
      right
      simp
  · intro u e lsn hU
    simp only [State.setStatus, State.append] at hU ⊢
    by_cases hUT : u = t
    · subst hUT
      rw [update_self] at hU
      obtain ⟨rfl, hStage⟩ := Status.op.inj hU
      obtain rfl := Stage.logged.inj hStage
      refine ⟨(hInv.bounds _).2, ?_⟩
      intro r hR e' _ _
      rcases mem_concat.mp hR with hROld | rfl
      · exact le_of_lt (hOrder.bounds hROld).2
      · exact le_refl _
    · rw [update_of_ne hUT] at hU
      have hAhead := hInv.ahead u e lsn hU
      refine ⟨hAhead.1, ?_⟩
      intro r hR e' hBody hPage
      rcases mem_concat.mp hR with hROld | rfl
      · exact hAhead.2 r hROld e' hBody hPage
      · obtain rfl : d = e' := by simpa using hBody
        exact absurd hPage.symm (hFree u e lsn hU)

/- The page of a logged change is stamped. -/
theorem StampInv.stamp
    {lsn : Int}
    (hInv : StampInv c)
    (hOrder : Log.InOrder c.log)
    (hStatus : StatusInv c)
    (hSt : c.status t = .op d (.logged lsn))
    (hNew : ∀ e n, st ≠ .op e (.logged n)) :
    StampInv ((c.setLsn d.loc.page lsn).setStatus t st) := by
  have hLogged : LoggedAt c.log t d lsn := (hStatus t).stage _ _ hSt
  rcases hLogged with ⟨a, hA, hATid, hALsn, hABody⟩
  have hAhead := hInv.ahead t d lsn hSt
  have hBounds := hOrder.bounds hA
  constructor
  · intro P
    simp only [State.setStatus, State.setLsn]
    by_cases hP : P = d.loc.page
    · subst hP
      rw [update_self]
      omega
    · rw [update_of_ne hP]
      exact hInv.bounds P
  · intro r hR e hBody
    simp only [State.setStatus, State.setLsn] at hR ⊢
    by_cases hP : e.loc.page = d.loc.page
    · left
      rw [hP, update_self]
      exact hAhead.2 r hR e hBody hP
    · rw [update_of_ne hP]
      rcases hInv.covered r hR e hBody with h | h
      · exact Or.inl h
      · right
        have hNe : r.tid ≠ t := by
          intro hT
          rw [hT, hSt] at h
          obtain ⟨rfl, _⟩ := Status.op.inj h
          exact hP rfl
        rw [update_of_ne hNe]
        exact h
  · intro u e n hU
    simp only [State.setStatus, State.setLsn] at hU ⊢
    by_cases hUT : u = t
    · subst hUT
      rw [update_self] at hU
      exact absurd hU (hNew e n)
    · rw [update_of_ne hUT] at hU
      have hAheadU := hInv.ahead u e n hU
      have hLoggedU : LoggedAt c.log u e n := (hStatus u).stage _ _ hU
      rcases hLoggedU with ⟨b, hB, hBTid, hBLsn, hBBody⟩
      -- two unstamped changes of one page are one change
      have hP : e.loc.page ≠ d.loc.page := by
        intro hP
        have h1 := hAhead.2 b hB e hBBody hP
        have h2 := hAheadU.2 a hA d hABody hP.symm
        have hSame : a = b := hOrder.eq_of_lsn_eq hA hB (by omega)
        rw [hSame] at hATid
        exact hUT (hBTid.symm.trans hATid)
      rw [update_of_ne hP]
      exact hAheadU

variable {inRange : Range}

theorem stampInv_step
    (hStep : Step inRange c c')
    (hOrder : Log.InOrder c.log)
    (hStatus : StatusInv c)
    (hInv : StampInv c) :
    StampInv c' := by
  cases hStep with
  | begin t hSt | place t x rec hSt | acquire t x rec hSt | read t d hSt | finish t d lsn hSt
  | fail t hSt | quiet t hSt => exact hInv.frame rfl rfl rfl (by simp [hSt]) (by simp)
  | unplace t x rec st v hSt hStage _ =>
    refine hInv.frame rfl rfl rfl ?_ (by simp)
    intro d lsn h
    rw [hSt] at h
    obtain ⟨_, rfl⟩ := Status.op.inj h
    simp [Stage.lsn?] at hStage
  | lockRow t x | rollback t x v owner | flush n | writeBack disk =>
    exact ⟨hInv.bounds, hInv.covered, hInv.ahead⟩
  | log t d st prevLsn hSt hHeld hFree =>
    refine hInv.log hOrder ?_ hFree
    intro e lsn h
    rw [hSt] at h
    obtain ⟨_, rfl⟩ := Status.op.inj h
    rcases hHeld with h | h <;> cases h
  | stamp t d lsn hSt =>
    refine hInv.stamp hOrder hStatus hSt ?_
    intro e n h
    split at h <;> cases h
  | apply t d lsn hSt =>
    refine hInv.frame rfl rfl rfl (by simp [hSt]) ?_
    intro e n h
    split at h <;> cases h
  | spoil t d st lsn v hSt hStage =>
    refine hInv.frame rfl rfl rfl ?_ (by simp)
    intro e n h
    rw [hSt] at h
    obtain ⟨_, rfl⟩ := Status.op.inj h
    rcases hStage with h | h <;> cases h
  | release t st hSt =>
    refine hInv.frame rfl rfl rfl ?_ ?_
    · rcases hSt with ⟨h, _⟩ | ⟨h, _⟩ <;> simp [h]
    · rcases hSt with ⟨_, rfl⟩ | ⟨_, rfl⟩ <;> simp
  | commit t prevLsn hSt =>
    refine hInv.quiet rfl (by simp) rfl ?_
    intro u d lsn
    simp only [State.setStatus, State.append]
    by_cases hU : u = t
    · subst hU
      simp [hSt]
    · rw [update_of_ne hU]
  | note t prevLsn body hBody =>
    refine hInv.quiet rfl ?_ rfl (fun _ _ _ => Iff.rfl)
    intro d h
    rcases hBody with ⟨_, rfl⟩ | rfl <;> cases h
  | skip => exact hInv

------------
-- Page Images On Disk
------------

/- The row in a slot of a page. -/
def slotLoc (P : PageId) (slotNo : Int) : Loc :=
  ⟨P.tab, ⟨P.pageNo, slotNo⟩⟩

/- A page image agrees with the log: a slot none of whose
  covered changes is doomed holds the value of the covered
  part of the log. -/
def ImageOk (c : State) (P : PageId) (p : Page) : Prop :=
  ∀ slotNo,
    (∀ r ∈ c.log, Log.Changes (slotLoc P slotNo) r →
      r.lsn ≤ p.lsn → c.status r.tid ≠ .doomed) →
    p.val slotNo =
      Log.value (slotLoc P slotNo) (Log.upto p.lsn c.log)

structure DiskInv (c : State) : Prop where
  flushed : c.flushed ≤ c.log.length
  lsn : ∀ P, -1 ≤ (c.disk P).lsn ∧ (c.disk P).lsn < c.flushed
  image : ∀ P, ImageOk c P (c.disk P)

/- An image that the log covers stays right as the log grows. -/
theorem ImageOk.step
    {P : PageId}
    {p : Page}
    (hStep : Step inRange c c')
    (hLsn : p.lsn < c.log.length)
    (hOk : ImageOk c P p) :
    ImageOk c' P p := by
  have hGrows := grows_step hStep
  intro slotNo hClean
  have hUpto : upto p.lsn c'.log = upto p.lsn c.log := by
    cases hGrows with
    | same hLog => rw [hLog]
    | quiet r hLog hRLsn | data t d st r hLog hRLsn => rw [hLog, upto_concat (by omega)]
  rw [hUpto]
  apply hOk
  intro r hR hX hLe hDoomed
  exact hClean r (mem_log_step hGrows hR) hX hLe (doomed_step hStep hDoomed)

variable {x : Loc}

/- Every logged change of the row is covered by the page. -/
theorem value_upto_of_covered
    {log : List LogRecord}
    {lsn : Int}
    (hAll : ∀ r ∈ log, Changes x r → r.lsn ≤ lsn) :
    value x (upto lsn log) = value x log := by
  apply value_filter
  intro r hR hX
  simpa using hAll r hR hX

/- A change that is not torn: unlogged, or complete. -/
theorem RowOk.content_of_not_torn
    {st : Stage}
    (hRow : RowOk c x)
    (hSt : c.status t = .op d st)
    (hLoc : d.loc = x)
    (hOk : StageOk c.log t d st)
    (hNot : ¬ Torn d st)
    (hStage : ∀ lsn, st ≠ .logged lsn) :
    c.content x = value x c.log := by
  have hVal := hRow.pending t d st hSt hLoc
  cases d with
  | insert y rec => exact absurd trivial hNot
  | delete y rec =>
    cases st with
    | placed | held => simp [StageOk, DataRecord.before] at hOk
    | read => exact hVal.1.trans (hVal.2.1 rfl)
    | logged lsn => exact absurd rfl (hStage lsn)
    | stamped lsn => exact absurd trivial hNot
    | applied lsn => simp [StageOk, DataRecord.after] at hOk
  | update y old new =>
    cases st with
    | placed | held => simp [StageOk, DataRecord.before] at hOk
    | read => exact hVal.1.trans (hVal.2.1 rfl)
    | logged lsn => exact absurd rfl (hStage lsn)
    | stamped lsn => exact absurd trivial hNot
    | applied lsn => exact hVal.1.trans (hVal.2.2 rfl).symm

/- A page without torn changes, as the buffer pool holds it,
  agrees with the log. -/
theorem imageOk_of_not_torn
    {P : PageId}
    (hStatus : StatusInv c)
    (hRows : RowInv c)
    (hBefore : BeforeInv c)
    (hStamps : StampInv c)
    (hTorn : ∀ t d st, c.status t = .op d st → d.loc.page = P → ¬ Torn d st) :
    ImageOk c P (c.image P) := by
  intro slotNo hClean
  set x := slotLoc P slotNo with hx
  have hPage : x.page = P := rfl
  -- a change beyond the page LSN is the unstamped one
  have hBeyond : ∀ r ∈ c.log, ∀ d, r.body = .data d → d.loc = x → r.lsn ≤ c.pageLsn P ∨
          c.status r.tid = .op d (.logged r.lsn) := by
    intro r hR d hBody hLoc
    have hCovered := hStamps.covered r hR d hBody
    rw [hLoc, hPage] at hCovered
    exact hCovered
  have hUntainted : Untainted c x := by
    rintro t hDoomed ⟨r, hR, rfl, d, hBody, hLoc⟩
    rcases hBeyond r hR d hBody hLoc with h | h
    · exact hClean r hR ⟨d, hBody, hLoc⟩ h hDoomed
    · rw [hDoomed] at h
      cases h
  have hRow := hRows x hUntainted
  change c.content x = value x (upto (c.pageLsn P) c.log)
  by_cases hAll : ∀ r ∈ c.log, Changes x r → r.lsn ≤ c.pageLsn P
  · rw [value_upto_of_covered hAll]
    by_cases hPend : ∃ t d st, c.status t = .op d st ∧ d.loc = x
    · rcases hPend with ⟨t, d, st, hSt, hLoc⟩
      have hOk := (hStatus t).stage d st hSt
      have hNot := hTorn t d st hSt (by rw [hLoc]; exact hPage)
      apply hRow.content_of_not_torn hSt hLoc hOk hNot
      rintro lsn rfl
      -- the record of an unstamped change is not covered
      rcases hOk with ⟨r, hR, _, hLsn, hBody⟩
      have hLe := hAll r hR ⟨_, hBody, hLoc⟩
      have hLt := (hStamps.ahead t _ lsn hSt).1
      rw [hLoc, hPage] at hLt
      omega
    · refine hRow.settled ?_
      intro t d st hSt hLoc
      exact hPend ⟨t, d, st, hSt, hLoc⟩
  · -- one change of the row awaits its stamp
    push Not at hAll
    rcases hAll with ⟨r, hR, ⟨d, hBody, hLoc⟩, hLt⟩
    have hSt : c.status r.tid = .op d (.logged r.lsn) := by
      rcases hBeyond r hR d hBody hLoc with h | h
      · omega
      · exact h
    have hNot := hTorn r.tid d _ hSt (by rw [hLoc]; exact hPage)
    have hVal := hRow.pending r.tid d _ hSt hLoc
    have hHeap : heapValue d (.logged r.lsn) = d.before := by
      cases d with
      | insert y rec => exact absurd trivial hNot
      | delete y rec => rfl
      | update y old new => rfl
    have hEarlier : ∀ a ∈ c.log, Changes d.loc a → a.lsn < r.lsn →
          c.status a.tid ≠ .doomed := by
      intro a hA hX _ hDoomed
      rw [hLoc] at hX
      exact hUntainted a.tid hDoomed ⟨a, hA, rfl, hX⟩
    rw [hVal.1, hHeap, hBefore r hR d hBody hEarlier, hLoc]
    apply value_filter_congr
    intro a hA hX
    rcases hX with ⟨e, hE, hELoc⟩
    have hAhead := (hStamps.ahead r.tid d r.lsn hSt).2 a hA e hE (by rw [hELoc, hLoc])
    rcases hBeyond a hA e hE hELoc with h | h
    · have : a.lsn ≤ r.lsn - 1 := by omega
      simp [h, this]
    · -- the unstamped change is this one
      have hAgain := (hStamps.ahead a.tid e a.lsn h).2 r hR d hBody (by rw [hELoc, hLoc])
      have hFar : ¬ a.lsn ≤ c.pageLsn P := by omega
      have hNotBefore : ¬ a.lsn ≤ r.lsn - 1 := by omega
      simp [hFar, hNotBefore]

theorem diskInv_step
    (hStep : Step inRange c c')
    (hStatus : StatusInv c)
    (hRows : RowInv c)
    (hBefore : BeforeInv c)
    (hStamps : StampInv c)
    (hInv : DiskInv c) :
    DiskInv c' := by
  have hOld : ∀ P, ImageOk c' P (c.disk P) := by
    intro P
    have hLsn := (hInv.lsn P).2
    have hFlushed := hInv.flushed
    exact (hInv.image P).step hStep (by omega)
  have hLength : c.log.length ≤ c'.log.length := by
    cases grows_step hStep with
    | same hLog => rw [hLog]
    | quiet r hLog => simp [hLog]
    | data t d st r hLog => simp [hLog]
  have hKeep : c'.disk = c.disk → c'.flushed = c.flushed → DiskInv c' := by
    intro hDisk hFlushed
    constructor
    · rw [hFlushed]
      exact le_trans hInv.flushed hLength
    · intro P
      rw [hDisk, hFlushed]
      exact hInv.lsn P
    · intro P
      rw [hDisk]
      exact hOld P
  cases hStep with
  | flush n hLe hMax =>
    refine ⟨hMax, ?_, hOld⟩
    intro P
    have := hInv.lsn P
    simp only
    omega
  | writeBack disk hPages =>
    refine ⟨hInv.flushed, ?_, ?_⟩
    · intro P
      rcases hPages P with h | ⟨h, hLsn, _⟩
      · simp only [h]
        exact hInv.lsn P
      · simp only [h]
        exact ⟨(hStamps.bounds P).1, hLsn⟩
    · intro P
      rcases hPages P with h | ⟨h, _, hTorn⟩
      · simp only [h]
        exact hOld P
      · have hImage : ImageOk c P (c.image P) := imageOk_of_not_torn hStatus hRows hBefore hStamps
            hTorn
        simp only [h]
        exact hImage
  | _ => exact hKeep rfl rfl

------------
-- Rows In Range
------------

/- Only rows that the tables have room for are ever used. -/
structure RangeInv (inRange : Range) (c : State) : Prop where
  logged : ∀ r ∈ c.log, ∀ x, Log.Changes x r → inRange x
  content : ∀ x, c.content x ≠ none → inRange x
  pending : ∀ t d st, c.status t = .op d st → inRange d.loc

/- A step writes a row in range and keeps the log. -/
theorem RangeInv.write
    {v : Option RmRecord}
    (hInv : RangeInv inRange c)
    (hIn : inRange x)
    (hLog : c'.log = c.log)
    (hContent : c'.content = update c.content x v)
    (hStatus : c'.status = update c.status t st)
    (hSt : ∀ d s, st = .op d s → inRange d.loc) :
    RangeInv inRange c' := by
  constructor
  · rw [hLog]
    exact hInv.logged
  · intro y hSome
    rw [hContent] at hSome
    by_cases hY : y = x
    · subst hY
      exact hIn
    · rw [update_of_ne hY] at hSome
      exact hInv.content y hSome
  · intro u d s hU
    rw [hStatus] at hU
    by_cases hT : u = t
    · subst hT
      rw [update_self] at hU
      exact hSt d s hU
    · rw [update_of_ne hT] at hU
      exact hInv.pending u d s hU

/- A step changes one status and keeps heap and log. -/
theorem RangeInv.move
    (hInv : RangeInv inRange c)
    (hLog : c'.log = c.log)
    (hContent : c'.content = c.content)
    (hStatus : c'.status = update c.status t st)
    (hSt : ∀ d s, st = .op d s → inRange d.loc) :
    RangeInv inRange c' := by
  constructor
  · rw [hLog]
    exact hInv.logged
  · rw [hContent]
    exact hInv.content
  · intro u d s hU
    rw [hStatus] at hU
    by_cases hT : u = t
    · subst hT
      rw [update_self] at hU
      exact hSt d s hU
    · rw [update_of_ne hT] at hU
      exact hInv.pending u d s hU

/- A record is appended whose rows are in range. -/
theorem RangeInv.append
    {prevLsn : Int}
    {body : LogBody}
    (hInv : RangeInv inRange c)
    (hBody : ∀ d, body = .data d → inRange d.loc) :
    RangeInv inRange (c.append t prevLsn body) := by
  refine ⟨?_, hInv.content, hInv.pending⟩
  intro r hR x hX
  rcases mem_concat.mp hR with hROld | rfl
  · exact hInv.logged r hROld x hX
  · rcases hX with ⟨d, hData, rfl⟩
    exact hBody d hData

theorem rangeInv_step (hStep : Step inRange c c')
    (hInv : RangeInv inRange c) : RangeInv inRange c' := by
  cases hStep with
  | begin t hSt | finish t d lsn hSt | fail t hSt | quiet t hSt =>
    exact hInv.move rfl rfl rfl (by simp)
  | place t x rec hSt hIn =>
    refine hInv.write hIn rfl rfl rfl ?_
    rintro d s ⟨⟩
    exact hIn
  | acquire t x rec hSt =>
    refine hInv.move rfl rfl rfl ?_
    rintro d s ⟨⟩
    exact hInv.pending t _ _ hSt
  | unplace t x rec st v hSt | spoil t d st lsn v hSt =>
    exact hInv.write (hInv.pending t _ _ hSt) rfl rfl rfl (by simp)
  | lockRow t x | flush n | writeBack disk => exact ⟨hInv.logged, hInv.content, hInv.pending⟩
  | read t d hSt hFree hSome hContent =>
    refine hInv.move rfl rfl rfl ?_
    rintro d' s ⟨⟩
    apply hInv.content
    rw [hContent]
    intro hNone
    rw [hNone] at hSome
    cases hSome
  | log t d st prevLsn hSt =>
    have hIn := hInv.pending t _ _ hSt
    have hAppend : RangeInv inRange (c.append t prevLsn (.data d)) :=
      hInv.append (by rintro d' ⟨⟩; exact hIn)
    refine hAppend.move rfl rfl rfl ?_
    rintro d' s ⟨⟩
    exact hIn
  | stamp t d lsn hSt =>
    refine hInv.move rfl rfl rfl ?_
    intro d' s h
    split at h
    · obtain ⟨rfl, rfl⟩ := Status.op.inj h
      exact hInv.pending t _ _ hSt
    · cases h
  | apply t d lsn hSt =>
    refine hInv.write (hInv.pending t _ _ hSt) rfl rfl rfl ?_
    intro d' s h
    split at h
    · obtain ⟨rfl, rfl⟩ := Status.op.inj h
      exact hInv.pending t _ _ hSt
    · cases h
  | rollback t x v owner hSt hChanged =>
    rcases hChanged with ⟨r, hR, _, hX⟩
    have hStatus : c.status = update c.status t (c.status t) := by simp
    refine hInv.write (hInv.logged r hR x hX) rfl rfl hStatus ?_
    intro d s h
    exact hInv.pending t d s h
  | release t st hSt =>
    refine hInv.move rfl rfl rfl ?_
    rcases hSt with ⟨_, rfl⟩ | ⟨_, rfl⟩ <;> simp
  | commit t prevLsn hSt =>
    have hAppend : RangeInv inRange (c.append t prevLsn .commit) := hInv.append (by simp)
    exact hAppend.move rfl rfl rfl (by simp)
  | note t prevLsn body hBody =>
    refine hInv.append ?_
    rintro d rfl
    rcases hBody with ⟨_, h⟩ | h <;> cases h
  | skip => exact hInv

------------
-- The Whole Invariant
------------

/- Everything the machine keeps true. -/
structure Inv (inRange : Range) (c : State) : Prop where
  order : Log.InOrder c.log
  status : StatusInv c
  locks : LockInv c
  rows : RowInv c
  changes : OrderInv c
  before : BeforeInv c
  stamps : StampInv c
  disk : DiskInv c
  range : RangeInv inRange c

theorem inv_step
    (hStep : Step inRange c c')
    (hInv : Inv inRange c) :
    Inv inRange c' where
  order := inOrder_step (grows_step hStep) hInv.order
  status := statusInv_step hStep hInv.status
  locks := lockInv_step hStep hInv.status hInv.locks
  rows := rowInv_step hStep hInv.status hInv.locks hInv.rows
  changes := orderInv_step hStep hInv.order hInv.status hInv.locks hInv.changes
  before := beforeInv_step hStep hInv.order hInv.rows hInv.before
  stamps := stampInv_step hStep hInv.order hInv.status hInv.stamps
  disk := diskInv_step hStep hInv.status hInv.rows hInv.before hInv.stamps hInv.disk
  range := rangeInv_step hStep hInv.range

/- Before the first transaction nothing has been written. -/
theorem inv_init
    (hLog : c.log = [])
    (hStatus : ∀ t, c.status t = .fresh)
    (hContent : ∀ x, c.content x = none)
    (hLsn : ∀ P, c.pageLsn P = -1)
    (hDisk : ∀ P, c.disk P = blankPage)
    (hFlushed : c.flushed = 0) :
    Inv inRange c where
  order := by simp [Log.InOrder, hLog]
  status := by
    intro t
    rw [hLog, hStatus]
    refine ⟨?_, ?_, ?_, ?_, ?_⟩ <;> simp [HasCommit, HasAbort, ChangedBy]
  locks := by
    intro t
    rw [hLog, hStatus]
    refine ⟨?_, ?_⟩ <;> simp [ChangedBy]
  rows := by
    intro x _
    refine ⟨?_, ?_, ?_⟩ <;> simp [hLog, hStatus, hContent, value]
  changes := by simp [OrderInv, hLog]
  before := by simp [BeforeInv, hLog]
  stamps := by refine ⟨?_, ?_, ?_⟩ <;> simp [hLog, hLsn, hStatus]
  disk := by
    refine ⟨by simp [hLog, hFlushed], ?_, ?_⟩
    · simp [hDisk, hFlushed, blankPage, invalidLsn]
    · intro P slotNo _
      simp [hDisk, hLog, blankPage, upto, value]
  range := by refine ⟨?_, ?_, ?_⟩ <;> simp [hLog, hContent, hStatus]

/- Several steps of the machine. -/
abbrev Steps (inRange : Range) : State → State → Prop :=
  Relation.ReflTransGen (Step inRange)

theorem inv_steps
    (hSteps : Steps inRange c c')
    (hInv : Inv inRange c) :
    Inv inRange c' := by
  induction hSteps with
  | refl => exact hInv
  | tail _ hStep ih => exact inv_step hStep ih

theorem untainted_of_steps (hSteps : Steps inRange c c')
    (hClean : Untainted c' x) : Untainted c x := by
  induction hSteps with
  | refl => exact hClean
  | tail _ hStep ih => exact ih (untainted_of_step hStep hClean)

end Wal

end Rmdb
