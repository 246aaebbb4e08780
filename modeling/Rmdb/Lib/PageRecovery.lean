import Mathlib.Data.List.Basic
import Mathlib.Data.List.Pairwise
import Mathlib.Logic.Function.Basic
import Mathlib.Tactic.Linarith

/-
  Redo and undo of one page under a page LSN test.

  A page image is a value for every slot and one LSN.  A log
  entry of the page names a slot, the value before and after
  the logged operation, and whether its transaction is a
  winner.  Redo replays the winners in log order and skips an
  entry whose LSN the page already carries; undo visits the
  losers backwards and puts back the value before each one
  the page carries.  Both stamp the page with the LSN of the
  entry they apply, so undo lowers the page LSN again.

  Key definitions include:
    * `PageRecovery.Entry`
    * `PageRecovery.Image`
    * `PageRecovery.schedule`
    * `PageRecovery.recover`
    * `PageRecovery.History`
    * `PageRecovery.Image.Faithful`

  Key theorems include:
    * `PageRecovery.redoAll_val`
    * `PageRecovery.undoAll_val`
    * `PageRecovery.recover_val`
    * `PageRecovery.recover_eq_winners`
    * `PageRecovery.recover_restart`
-/

------------
-- Entries And Images
------------

namespace PageRecovery

/- One logged operation on a slot of the page. -/
structure Entry (X V : Type) where
  lsn : Int
  slot : X
  before : V
  after : V
  winner : Bool

/- A page image: its LSN and the value of every slot. -/
structure Image (X V : Type) where
  lsn : Int
  val : X → V

variable {X V : Type}

/- The value of a slot after a list of operations on it. -/
def replay (v : V) (es : List (Entry X V)) : V :=
  es.foldl (fun _ e => e.after) v

/- The value of a slot after taking back a list of operations. -/
def rollback (v : V) (es : List (Entry X V)) : V :=
  es.foldl (fun _ e => e.before) v

@[simp] theorem replay_nil (v : V) : replay v ([] : List (Entry X V)) = v := rfl

@[simp] theorem replay_cons
    (v : V)
    (e : Entry X V)
    (es : List (Entry X V)) :
    replay v (e :: es) = replay e.after es := rfl

@[simp] theorem rollback_nil (v : V) :
    rollback v ([] : List (Entry X V)) = v := rfl

@[simp] theorem rollback_cons
    (v : V)
    (e : Entry X V)
    (es : List (Entry X V)) :
    rollback v (e :: es) = rollback e.before es := rfl

theorem replay_append
    (v : V)
    (first second : List (Entry X V)) :
    replay v (first ++ second) = replay (replay v first) second := by
  simp [replay]

/- Replaying the end of a history once more changes nothing:
  the last operation already decided the value. -/
theorem replay_suffix_idem
    (v : V)
    (first second : List (Entry X V)) :
    replay (replay v (first ++ second)) second =
      replay v (first ++ second) := by
  rcases List.eq_nil_or_concat second with
    rfl | ⟨init, last, rfl⟩
  · rfl
  · simp [replay]

/- Only the last entry of a rollback matters. -/
theorem rollback_concat
    (v : V)
    (es : List (Entry X V))
    (e : Entry X V) :
    rollback v (es ++ [e]) = e.before := by
  simp [rollback]

/- The winners of a log, in log order. -/
def winners (es : List (Entry X V)) : List (Entry X V) :=
  es.filter (fun e => e.winner)

/- The losers of a log, in log order. -/
def losers (es : List (Entry X V)) : List (Entry X V) :=
  es.filter (fun e => !e.winner)

@[simp] theorem mem_winners
    {es : List (Entry X V)}
    {e : Entry X V} :
    e ∈ winners es ↔ e ∈ es ∧ e.winner = true := by
  simp [winners]

@[simp] theorem mem_losers
    {es : List (Entry X V)}
    {e : Entry X V} :
    e ∈ losers es ↔ e ∈ es ∧ e.winner = false := by
  simp [losers]

/- Entries in log order carry strictly increasing LSNs. -/
def Sorted (es : List (Entry X V)) : Prop :=
  es.Pairwise (fun a b => a.lsn < b.lsn)

/- The entries of a log that a page LSN does not cover. -/
def newer (lsn : Int) (es : List (Entry X V)) : List (Entry X V) :=
  es.filter (fun e => lsn < e.lsn)

/- The entries of a log that a page LSN covers. -/
def upto (lsn : Int) (es : List (Entry X V)) : List (Entry X V) :=
  es.filter (fun e => e.lsn ≤ lsn)

variable {lsn : Int}

@[simp] theorem mem_newer
    {es : List (Entry X V)}
    {e : Entry X V} :
    e ∈ newer lsn es ↔ e ∈ es ∧ lsn < e.lsn := by
  simp [newer]

@[simp] theorem mem_upto
    {es : List (Entry X V)}
    {e : Entry X V} :
    e ∈ upto lsn es ↔ e ∈ es ∧ e.lsn ≤ lsn := by
  simp [upto]

theorem newer_eq_self {es : List (Entry X V)}
    (hLt : ∀ e ∈ es, lsn < e.lsn) : newer lsn es = es := by
  simpa [newer, List.filter_eq_self] using hLt

theorem upto_eq_self
    {es : List (Entry X V)}
    (hLe : ∀ e ∈ es, e.lsn ≤ lsn) :
    upto lsn es = es := by
  simpa [upto, List.filter_eq_self] using hLe

variable [DecidableEq X]

/- The entries of one slot, in log order. -/
def on (x : X) (es : List (Entry X V)) : List (Entry X V) :=
  es.filter (fun e => e.slot = x)

@[simp] theorem mem_on
    {x : X}
    {es : List (Entry X V)}
    {e : Entry X V} :
    e ∈ on x es ↔ e ∈ es ∧ e.slot = x := by
  simp [on]

namespace Image

/- Stamp the page and set one slot. -/
def write (p : Image X V) (lsn : Int) (x : X) (v : V) : Image X V :=
  ⟨lsn, Function.update p.val x v⟩

/- Redo one operation unless the page carries it. -/
def redo (p : Image X V) (e : Entry X V) : Image X V :=
  if p.lsn < e.lsn then
    p.write e.lsn e.slot e.after
  else
    p

/- Undo one operation if the page carries it. -/
def undo (p : Image X V) (e : Entry X V) : Image X V :=
  if e.lsn ≤ p.lsn then
    p.write e.lsn e.slot e.before
  else
    p

end Image

/- One step of recovery on the page. -/
inductive Step (X V : Type) where
  | redo (e : Entry X V)
  | undo (e : Entry X V)

/- Perform one recovery step. -/
def Step.apply (p : Image X V) :
    Step X V → Image X V
| .redo e => p.redo e
| .undo e => p.undo e

/- Redo every operation of a list. -/
def redoAll (es : List (Entry X V)) (p : Image X V) : Image X V :=
  es.foldl Image.redo p

/- Undo every operation of a list. -/
def undoAll (es : List (Entry X V)) (p : Image X V) : Image X V :=
  es.foldl Image.undo p

/- The steps of one recovery: the winners forwards, then the
  losers backwards. -/
def schedule (es : List (Entry X V)) : List (Step X V) :=
  (winners es).map .redo ++
    (losers es).reverse.map .undo

/- Perform all steps of recovery. -/
def recover (es : List (Entry X V)) (p : Image X V) : Image X V :=
  (schedule es).foldl Step.apply p

theorem recover_eq (es : List (Entry X V))
    (p : Image X V) :
    recover es p = undoAll (losers es).reverse (redoAll (winners es) p) := by
  unfold recover schedule
  rw [List.foldl_append, List.foldl_map, List.foldl_map]
  rfl

------------
-- The Effect Of Redo And Undo
------------

@[simp] theorem redoAll_nil (p : Image X V) : redoAll [] p = p := rfl

@[simp] theorem redoAll_cons
    (e : Entry X V)
    (es : List (Entry X V))
    (p : Image X V) :
    redoAll (e :: es) p = redoAll es (p.redo e) := rfl

@[simp] theorem undoAll_nil (p : Image X V) : undoAll [] p = p := rfl

@[simp] theorem undoAll_cons
    (e : Entry X V)
    (es : List (Entry X V))
    (p : Image X V) :
    undoAll (e :: es) p = undoAll es (p.undo e) := rfl

theorem redoAll_append (first second : List (Entry X V))
    (p : Image X V) :
    redoAll (first ++ second) p = redoAll second (redoAll first p) := by
  simp [redoAll]

theorem undoAll_append (first second : List (Entry X V))
    (p : Image X V) :
    undoAll (first ++ second) p = undoAll second (undoAll first p) := by
  simp [undoAll]

/- Redo never lowers the page LSN. -/
theorem lsn_le_redoAll
    (es : List (Entry X V))
    (p : Image X V) :
    p.lsn ≤ (redoAll es p).lsn := by
  induction es generalizing p with
  | nil => simp
  | cons e es ih =>
    refine le_trans ?_ (ih (p.redo e))
    unfold Image.redo
    split
    · exact le_of_lt (by assumption)
    · exact le_refl _

/- After redo the page carries every redone entry. -/
theorem mem_lsn_le_redoAll
    {es : List (Entry X V)}
    {e : Entry X V}
    (p : Image X V)
    (hMem : e ∈ es) :
    e.lsn ≤ (redoAll es p).lsn := by
  induction es generalizing p with
  | nil => simp at hMem
  | cons a es ih =>
    rcases List.mem_cons.mp hMem with rfl | hTail
    · refine le_trans ?_ (lsn_le_redoAll es (p.redo e))
      unfold Image.redo
      split
      · exact le_refl _
      · omega
    · exact ih (p.redo a) hTail

/- The page LSN after redo is an old one or a redone one. -/
theorem redoAll_lsn_mem (es : List (Entry X V))
    (p : Image X V) :
    (redoAll es p).lsn = p.lsn ∨ ∃ e ∈ es, (redoAll es p).lsn = e.lsn := by
  induction es generalizing p with
  | nil => simp
  | cons a es ih =>
    rcases ih (p.redo a) with hOld | ⟨e, hMem, hLsn⟩
    · rw [redoAll_cons, hOld]
      unfold Image.redo
      split
      · exact Or.inr ⟨a, by simp, rfl⟩
      · exact Or.inl rfl
    · exact Or.inr ⟨e, List.mem_cons_of_mem a hMem, hLsn⟩

/- Redo does nothing when the page carries every entry. -/
theorem redoAll_of_le
    {es : List (Entry X V)}
    {p : Image X V}
    (hLe : ∀ e ∈ es, e.lsn ≤ p.lsn) :
    redoAll es p = p := by
  induction es with
  | nil => rfl
  | cons e es ih =>
    have hSkip : p.redo e = p := by
      have := hLe e (by simp)
      simp [Image.redo, Int.not_lt.mpr this]
    rw [redoAll_cons, hSkip]
    exact ih (fun a hMem => hLe a (List.mem_cons_of_mem e hMem))

theorem on_cons
    (x : X)
    (e : Entry X V)
    (es : List (Entry X V)) :
    on x (e :: es) =
      if e.slot = x then e :: on x es else on x es := by
  by_cases h : e.slot = x <;> simp [on, h]

/- On a log in LSN order the running page LSN makes the same
  choice as the initial one: a slot ends with the replay of
  its entries that the page did not carry at the start. -/
theorem redoAll_val
    {es : List (Entry X V)}
    (hSorted : Sorted es)
    (p : Image X V)
    (x : X) :
    (redoAll es p).val x = replay (p.val x) (on x (newer p.lsn es)) := by
  induction es generalizing p with
  | nil => simp [newer, on]
  | cons e es ih =>
    have hTail := List.pairwise_cons.mp hSorted
    rw [redoAll_cons, ih hTail.2]
    by_cases hNew : p.lsn < e.lsn
    · have hAll : newer e.lsn es = es := newer_eq_self hTail.1
      have hAll' : newer p.lsn (e :: es) = e :: es := by
        apply newer_eq_self
        intro a hMem
        rcases List.mem_cons.mp hMem with rfl | hMem
        · exact hNew
        · exact lt_trans hNew (hTail.1 a hMem)
      simp only [Image.redo, hNew, if_true, Image.write, hAll, hAll', on_cons]
      by_cases hSlot : e.slot = x
      · subst hSlot
        simp
      · rw [Function.update_of_ne (Ne.symm hSlot)]
        simp [hSlot]
    · have hSkip : newer p.lsn (e :: es) = newer p.lsn es := by simp [newer, hNew]
      simp only [Image.redo, hNew, if_false, hSkip]

/- Backwards through a log in LSN order, undo visits exactly
  the entries the page carries when undo starts. -/
theorem undoAll_val
    {es : List (Entry X V)}
    (hSorted : es.Pairwise (fun a b => b.lsn < a.lsn))
    (p : Image X V)
    (x : X) :
    (undoAll es p).val x = rollback (p.val x) (on x (upto p.lsn es)) := by
  induction es generalizing p with
  | nil => simp [upto, on]
  | cons e es ih =>
    have hTail := List.pairwise_cons.mp hSorted
    rw [undoAll_cons, ih hTail.2]
    by_cases hHas : e.lsn ≤ p.lsn
    · have hAll : upto e.lsn es = es := upto_eq_self (fun a hMem => le_of_lt (hTail.1 a hMem))
      have hAll' : upto p.lsn (e :: es) = e :: es := by
        apply upto_eq_self
        intro a hMem
        rcases List.mem_cons.mp hMem with rfl | hMem
        · exact hHas
        · exact le_trans (le_of_lt (hTail.1 a hMem)) hHas
      simp only [Image.undo, hHas, if_true, Image.write, hAll, hAll', on_cons]
      by_cases hSlot : e.slot = x
      · subst hSlot
        simp
      · rw [Function.update_of_ne (Ne.symm hSlot)]
        simp [hSlot]
    · have hSkip : upto p.lsn (e :: es) = upto p.lsn es := by simp [upto, hHas]
      simp only [Image.undo, hHas, if_false, hSkip]

------------
-- What Recovery Leaves In A Slot
------------

omit [DecidableEq X] in
/- On a sorted log the covered entries form the front part. -/
theorem upto_append_newer
    {es : List (Entry X V)}
    (hSorted : Sorted es)
    (lsn : Int) :
    upto lsn es ++ newer lsn es = es := by
  induction es with
  | nil => rfl
  | cons e es ih =>
    have hTail := List.pairwise_cons.mp hSorted
    by_cases hLe : e.lsn ≤ lsn
    · have hRest := ih hTail.2
      simp only [upto, newer] at hRest
      simp [upto, newer, hLe, Int.not_lt.mpr hLe, hRest]
    · have hLt : lsn < e.lsn := Int.not_le.mp hLe
      have hAll : newer lsn (e :: es) = e :: es := by
        apply newer_eq_self
        intro a hMem
        rcases List.mem_cons.mp hMem with rfl | hMem
        · exact hLt
        · exact lt_trans hLt (hTail.1 a hMem)
      have hNone : upto lsn (e :: es) = [] := by
        rw [upto, List.filter_eq_nil_iff]
        intro a hMem
        have hNew : a ∈ newer lsn (e :: es) := by
          rw [hAll]
          exact hMem
        have := (mem_newer.mp hNew).2
        simp
        omega
      rw [hAll, hNone, List.nil_append]

omit [DecidableEq X] in
/- On a sorted log an LSN names one entry. -/
theorem eq_of_lsn_eq
    {es : List (Entry X V)}
    {a b : Entry X V}
    (hSorted : Sorted es)
    (hA : a ∈ es)
    (hB : b ∈ es)
    (hLsn : a.lsn = b.lsn) :
    a = b := by
  induction es with
  | nil => simp at hA
  | cons e es ih =>
    have hTail := List.pairwise_cons.mp hSorted
    rcases List.mem_cons.mp hA with rfl | hARest
    · rcases List.mem_cons.mp hB with rfl | hBRest
      · rfl
      · have := hTail.1 b hBRest
        omega
    · rcases List.mem_cons.mp hB with rfl | hBRest
      · have := hTail.1 a hARest
        omega
      · exact ih hTail.2 hARest hBRest

theorem on_append (x : X)
    (first second : List (Entry X V)) :
    on x (first ++ second) = on x first ++ on x second := by
  simp [on]

omit [DecidableEq X] in
theorem sorted_winners {es : List (Entry X V)}
    (hSorted : Sorted es) :
    Sorted (winners es) := List.Pairwise.filter _ hSorted

omit [DecidableEq X] in
theorem sorted_losers_reverse {es : List (Entry X V)}
    (hSorted : Sorted es) :
    (losers es).reverse.Pairwise (fun a b => b.lsn < a.lsn) := by
  rw [List.pairwise_reverse]
  exact List.Pairwise.filter _ hSorted

theorem sorted_on
    {es : List (Entry X V)}
    (hSorted : Sorted es)
    (x : X) :
    Sorted (on x es) := List.Pairwise.filter _ hSorted

/- The earliest loser of a slot, whose before-image decides. -/
def firstLoser (x : X) (es : List (Entry X V)) : Option (Entry X V) :=
  (on x (losers es)).head?

theorem firstLoser_spec
    {es : List (Entry X V)}
    {x : X}
    {w : Entry X V}
    (hSorted : Sorted es)
    (hFirst : firstLoser x es = some w) :
    w ∈ es ∧ w.slot = x ∧ w.winner = false ∧ ∀ a ∈ es, a.slot = x →
        a.lsn < w.lsn →
        a.winner = true := by
  unfold firstLoser at hFirst
  have hMem := List.mem_of_mem_head? hFirst
  rw [mem_on, mem_losers] at hMem
  refine ⟨hMem.1.1, hMem.2, hMem.1.2, ?_⟩
  intro a hA hSlot hLt
  by_contra hLoser
  have hAOn : a ∈ on x (losers es) := by simpa [hA, hSlot] using hLoser
  have hOnSorted : Sorted (on x (losers es)) := sorted_on (List.Pairwise.filter _ hSorted) x
  -- the head of the sorted loser list is the lowest loser
  cases hList : on x (losers es) with
  | nil => simp [hList] at hFirst
  | cons h rest =>
    rw [hList] at hFirst hAOn hOnSorted
    obtain rfl : h = w := by simpa using hFirst
    rcases List.mem_cons.mp hAOn with rfl | hRest
    · omega
    · have := (List.pairwise_cons.mp hOnSorted).1 a hRest
      omega

theorem winners_of_firstLoser_none
    {es : List (Entry X V)}
    {x : X}
    (hNone : firstLoser x es = none) :
    ∀ a ∈ es, a.slot = x → a.winner = true := by
  intro a hA hSlot
  by_contra hLoser
  have hAOn : a ∈ on x (losers es) := by simpa [hA, hSlot] using hLoser
  have hNil : on x (losers es) = [] := List.head?_eq_none_iff.mp hNone
  simp [hNil] at hAOn

/- The value redo leaves in a slot. -/
def redone (es : List (Entry X V)) (p : Image X V) (x : X) : V :=
  replay (p.val x) (on x (newer p.lsn (winners es)))

/- The page LSN redo leaves. -/
def redoneLsn (es : List (Entry X V)) (p : Image X V) : Int :=
  (redoAll (winners es) p).lsn

omit [DecidableEq X] in
/- A rollback from the end of a sorted list stops at its head,
  if the head is covered at all. -/
theorem rollback_upto_reverse
    {es : List (Entry X V)}
    (hSorted : Sorted es)
    (lsn : Int)
    (v : V) :
    rollback v (upto lsn es).reverse =
      match es.head? with
      | some w => if w.lsn ≤ lsn then w.before else v
      | none => v := by
  cases es with
  | nil => simp [upto]
  | cons w rest =>
    by_cases hLe : w.lsn ≤ lsn
    · simp [upto, hLe, rollback_concat]
    · have hNone : upto lsn (w :: rest) = [] := by
        rw [upto, List.filter_eq_nil_iff]
        intro a hMem
        rcases List.mem_cons.mp hMem with rfl | hRest
        · simpa using hLe
        · have := (List.pairwise_cons.mp hSorted).1 a hRest
          simp
          omega
      simp [hNone, hLe]

/- What one recovery leaves in a slot: the before-image of the
  slot's earliest loser if the page carries it once redo is
  over, and what redo left otherwise. -/
theorem recover_val
    {es : List (Entry X V)}
    (hSorted : Sorted es)
    (p : Image X V)
    (x : X) :
    (recover es p).val x =
      match firstLoser x es with
      | some w =>
        if w.lsn ≤ redoneLsn es p then
          w.before
        else
          redone es p x
      | none => redone es p x := by
  rw [recover_eq, undoAll_val (sorted_losers_reverse hSorted), redoAll_val (sorted_winners hSorted)]
  have hComm : on x (upto (redoAll (winners es) p).lsn (losers es).reverse) =
        (upto (redoAll (winners es) p).lsn (on x (losers es))).reverse := by
    simp only [on, upto, List.filter_reverse, List.filter_filter, Bool.and_comm]
  rw [hComm]
  exact rollback_upto_reverse (sorted_on (List.Pairwise.filter _ hSorted) x) _ _

------------
-- Histories And Faithful Images
------------

/- A log in LSN order whose before-images are honest where the
  slot's past is made of winners only: such an entry read the
  replay of the slot's earlier entries. -/
structure History (v0 : X → V) (es : List (Entry X V)) : Prop where
  sorted : Sorted es
  chain : ∀ e ∈ es, (∀ a ∈ es, a.slot = e.slot → a.lsn < e.lsn → a.winner = true) → e.before =
        replay (v0 e.slot) (on e.slot (upto (e.lsn - 1) es))

/- An image is faithful when a slot none of whose covered
  entries is a loser holds the replay of the covered entries. -/
def Image.Faithful
    (v0 : X → V)
    (es : List (Entry X V))
    (p : Image X V) :
    Prop :=
  ∀ x,
    (∀ e ∈ es, e.slot = x → e.lsn ≤ p.lsn →
      e.winner = true) →
    p.val x = replay (v0 x) (on x (upto p.lsn es))

theorem on_upto_winners
    {es : List (Entry X V)}
    {x : X}
    (hWinners : ∀ a ∈ es, a.slot = x → a.lsn ≤ lsn → a.winner = true) :
    on x (upto lsn es) = on x (upto lsn (winners es)) := by
  unfold on upto winners
  rw [List.filter_filter, List.filter_filter, List.filter_filter]
  apply List.filter_congr
  intro a hMem
  by_cases hSlot : a.slot = x
  · by_cases hLe : a.lsn ≤ lsn
    · simp [hSlot, hLe, hWinners a hMem hSlot hLe]
    · simp [hLe]
  · simp [hSlot]

theorem on_winners_split
    {es : List (Entry X V)}
    (hSorted : Sorted es)
    (x : X)
    (lsn : Int) :
    on x (upto lsn (winners es)) ++ on x (newer lsn (winners es)) =
      on x (winners es) := by
  rw [← on_append, upto_append_newer (sorted_winners hSorted)]

/- Replaying the winners a page LSN leaves out is idempotent. -/
theorem replay_winners_newer
    {es : List (Entry X V)}
    (hSorted : Sorted es)
    (v : V)
    (x : X)
    (lsn : Int) :
    replay (replay v (on x (winners es))) (on x (newer lsn (winners es))) =
      replay v (on x (winners es)) := by
  rw [← on_winners_split hSorted x lsn]
  exact replay_suffix_idem v _ _

/- Redo completes a faithful image of a slot without covered
  losers to the replay of all winners. -/
theorem redone_eq_winners
    {v0 : X → V}
    {es : List (Entry X V)}
    {p : Image X V}
    {x : X}
    (hSorted : Sorted es)
    (hFaithful : p.Faithful v0 es)
    (hWinners : ∀ a ∈ es, a.slot = x → a.lsn ≤ p.lsn → a.winner = true) :
    redone es p x = replay (v0 x) (on x (winners es)) := by
  unfold redone
  rw [hFaithful x hWinners, on_upto_winners hWinners, ← replay_append, on_winners_split hSorted]

/- The before-image of a slot's earliest loser is the replay
  of the winners that come before it. -/
theorem firstLoser_before
    {v0 : X → V}
    {es : List (Entry X V)}
    {x : X}
    {w : Entry X V}
    (hHistory : History v0 es)
    (hFirst : firstLoser x es = some w) :
    w.before = replay (v0 x) (on x (upto (w.lsn - 1) (winners es))) := by
  rcases firstLoser_spec hHistory.sorted hFirst with ⟨hMem, hSlot, _, hEarlier⟩
  subst hSlot
  rw [hHistory.chain w hMem hEarlier, on_upto_winners]
  intro a hA hASlot hLe
  exact hEarlier a hA hASlot (by omega)

theorem firstLoser_before_all
    {v0 : X → V}
    {es : List (Entry X V)}
    {x : X}
    {w : Entry X V}
    (hHistory : History v0 es)
    (hFirst : firstLoser x es = some w)
    (hAll : ∀ a ∈ winners es, a.slot = x → a.lsn < w.lsn) :
    w.before = replay (v0 x) (on x (winners es)) := by
  rw [firstLoser_before hHistory hFirst]
  congr 1
  rw [← on_winners_split hHistory.sorted x (w.lsn - 1)]
  have hNone : on x (newer (w.lsn - 1) (winners es)) = [] := by
    rw [List.eq_nil_iff_forall_not_mem]
    intro a hA
    rw [mem_on, mem_newer] at hA
    have := hAll a hA.1.1 hA.2
    omega
  rw [hNone, List.append_nil]

------------
-- Recovery Leaves The Winners
------------

/- When on every slot the winners come before the losers, one
  recovery of a faithful image leaves exactly the replay of
  the winners. -/
theorem recover_eq_winners
    {v0 : X → V}
    {es : List (Entry X V)}
    {p : Image X V}
    (hHistory : History v0 es)
    (hFirst : ∀ a ∈ es, ∀ b ∈ es, a.slot = b.slot →
        a.lsn < b.lsn → b.winner = true → a.winner = true)
    (hFaithful : p.Faithful v0 es)
    (x : X) :
    (recover es p).val x = replay (v0 x) (on x (winners es)) := by
  have hSorted := hHistory.sorted
  rw [recover_val hSorted]
  cases hLoser : firstLoser x es with
  | none =>
    exact redone_eq_winners hSorted hFaithful (fun a hA hSlot _ =>
        winners_of_firstLoser_none hLoser a hA hSlot)
  | some w =>
    rcases firstLoser_spec hSorted hLoser with ⟨hMem, hSlot, hLoses, hEarlier⟩
    by_cases hHas : w.lsn ≤ redoneLsn es p
    · simp only [hHas, if_true]
      apply firstLoser_before_all hHistory hLoser
      intro a hA hASlot
      rw [mem_winners] at hA
      -- a winner after the loser would make it a winner
      rcases lt_trichotomy a.lsn w.lsn with h | h | h
      · exact h
      · exfalso
        rw [eq_of_lsn_eq hSorted hA.1 hMem h, hLoses] at hA
        cases hA.2
      · have := hFirst w hMem a hA.1 (hSlot.trans hASlot.symm) h hA.2
        rw [hLoses] at this
        cases this
    · simp only [hHas, if_false]
      apply redone_eq_winners hSorted hFaithful
      intro a hA hASlot hLe
      have hLow : p.lsn ≤ redoneLsn es p := lsn_le_redoAll (winners es) p
      exact hEarlier a hA hASlot (by omega)

------------
-- Restarting An Interrupted Recovery
------------

/- The image after the first steps of a recovery. -/
def interrupted
    (es : List (Entry X V))
    (n : Nat)
    (p : Image X V) :
    Image X V :=
  ((schedule es).take n).foldl Step.apply p

/- An interrupted recovery stopped in its redo phase or in its
  undo phase. -/
theorem interrupted_cases
    (es : List (Entry X V))
    (n : Nat)
    (p : Image X V) :
    interrupted es n p = redoAll ((winners es).take n) p ∨ ∃ m,
        interrupted es n p =
        undoAll ((losers es).reverse.take m) (redoAll (winners es) p) := by
  unfold interrupted schedule
  rw [List.take_append]
  rcases Nat.le_total n (winners es).length with hLe | hGe
  · left
    have hZero : n - ((winners es).map Step.redo).length = 0 := by
      simp
      omega
    rw [hZero, List.take_zero, List.append_nil, ← List.map_take, List.foldl_map]
    rfl
  · right
    refine ⟨n - (winners es).length, ?_⟩
    rw [List.length_map, List.take_of_length_le (by simpa),
      ← List.map_take, List.foldl_append, List.foldl_map, List.foldl_map]
    rfl

/- Recovery depends on its image only through redo. -/
theorem recover_congr
    {es : List (Entry X V)}
    {p q : Image X V}
    (hRedo : redoAll (winners es) p = redoAll (winners es) q) :
    recover es p = recover es q := by
  rw [recover_eq, recover_eq, hRedo]

/- Repeating a part of redo changes nothing. -/
theorem redoAll_take
    (es : List (Entry X V))
    (n : Nat)
    (p : Image X V) :
    redoAll es (redoAll (es.take n) p) = redoAll es p := by
  have hRepeat : redoAll (es.take n) (redoAll (es.take n) p) = redoAll (es.take n) p :=
    redoAll_of_le (fun e hMem => mem_lsn_le_redoAll p hMem)
  calc
    redoAll es (redoAll (es.take n) p) = redoAll (es.take n ++ es.drop n)
          (redoAll (es.take n) p) := by rw [List.take_append_drop]
    _ = redoAll (es.drop n) (redoAll (es.take n) p) := by rw [redoAll_append, hRepeat]
    _ = redoAll es p := by rw [← redoAll_append, List.take_append_drop]

/- The page LSN after a descending undo: that of the lowest
  entry visited, once any entry has been applied. -/
theorem undoAll_lsn_cases
    {es : List (Entry X V)}
    (hSorted : es.Pairwise (fun a b => b.lsn < a.lsn))
    (p : Image X V) :
    undoAll es p = p ∨ ∃ u ∈ es, u.lsn ≤ p.lsn ∧
      (undoAll es p).lsn = u.lsn := by
  induction es generalizing p with
  | nil => exact Or.inl rfl
  | cons e es ih =>
    have hTail := List.pairwise_cons.mp hSorted
    rw [undoAll_cons]
    by_cases hHas : e.lsn ≤ p.lsn
    · have hUndo : p.undo e = p.write e.lsn e.slot e.before := by simp [Image.undo, hHas]
      rw [hUndo]
      rcases ih hTail.2 (p.write e.lsn e.slot e.before) with
        hSame | ⟨u, hMem, hLe, hLsn⟩
      · exact Or.inr ⟨e, by simp, hHas, by rw [hSame]; rfl⟩
      · exact Or.inr ⟨u, List.mem_cons_of_mem e hMem, le_trans hLe hHas, hLsn⟩
    · have hUndo : p.undo e = p := by simp [Image.undo, hHas]
      rw [hUndo]
      rcases ih hTail.2 p with hSame | ⟨u, hMem, hLe, hLsn⟩
      · exact Or.inl hSame
      · exact Or.inr ⟨u, List.mem_cons_of_mem e hMem, hLe, hLsn⟩

omit [DecidableEq X] in
/- A descending rollback ends at its lowest entry. -/
theorem rollback_eq_lowest
    {es : List (Entry X V)}
    {w : Entry X V}
    (hSorted : es.Pairwise (fun a b => b.lsn < a.lsn))
    (hMem : w ∈ es)
    (hLow : ∀ a ∈ es, w.lsn ≤ a.lsn)
    (v : V) :
    rollback v es = w.before := by
  induction es generalizing v with
  | nil => simp at hMem
  | cons e es ih =>
    have hTail := List.pairwise_cons.mp hSorted
    rcases List.mem_cons.mp hMem with rfl | hRest
    · have hNil : es = [] := by
        rw [List.eq_nil_iff_forall_not_mem]
        intro a hA
        have h1 := hTail.1 a hA
        have h2 := hLow a (List.mem_cons_of_mem w hA)
        omega
      simp [hNil]
    · exact ih hTail.2 hRest (fun a hA => hLow a (List.mem_cons_of_mem e hA)) _

omit [DecidableEq X] in
/- Descending, what lies above a visited entry is visited. -/
theorem mem_take_of_lsn_lt
    {es : List (Entry X V)}
    {u w : Entry X V}
    {m : Nat}
    (hSorted : es.Pairwise (fun a b => b.lsn < a.lsn))
    (hU : u ∈ es.take m)
    (hW : w ∈ es)
    (hLt : u.lsn < w.lsn) :
    w ∈ es.take m := by
  induction es generalizing m with
  | nil => simp at hW
  | cons e es ih =>
    have hTail := List.pairwise_cons.mp hSorted
    cases m with
    | zero => simp at hU
    | succ m =>
      rcases List.mem_cons.mp hW with rfl | hWRest
      · exact List.mem_cons_self
      · rcases List.mem_cons.mp hU with rfl | hURest
        · have := hTail.1 w hWRest
          omega
        · exact List.mem_cons_of_mem e (ih hTail.2 hURest hWRest)

section Restart

variable {v0 : X → V} {es : List (Entry X V)}
variable {p q : Image X V}

/- Restarting redo from lower never passes the first redo. -/
theorem redoneLsn_le (hLe : q.lsn ≤ redoneLsn es p) :
    redoneLsn es q ≤ redoneLsn es p := by
  unfold redoneLsn
  rcases redoAll_lsn_mem (winners es) q with
    hOld | ⟨e, hMem, hLsn⟩
  · rw [hOld]
    exact hLe
  · rw [hLsn]
    exact mem_lsn_le_redoAll p hMem

/- A slot that already holds the winners' replay keeps it. -/
theorem redone_of_winners
    {x : X}
    (hSorted : Sorted es)
    (hVal : q.val x = replay (v0 x) (on x (winners es))) :
    redone es q x = replay (v0 x) (on x (winners es)) := by
  unfold redone
  rw [hVal, replay_winners_newer hSorted]

/- The value of a slot when undo was stopped after its first
  steps. -/
theorem undoAll_take_val
    (hSorted : Sorted es)
    (m : Nat)
    (x : X) :
    (undoAll ((losers es).reverse.take m) (redoAll (winners es) p)).val x =
        rollback (redone es p x)
        (on x (upto (redoneLsn es p) ((losers es).reverse.take m))) := by
  have hTake : ((losers es).reverse.take m).Pairwise (fun a b => b.lsn < a.lsn) :=
    (sorted_losers_reverse hSorted).sublist (List.take_sublist m _)
  rw [undoAll_val hTake, redoAll_val (sorted_winners hSorted)]
  rfl

/- No covered loser on the slot: undo leaves it alone. -/
theorem undoAll_take_val_of_no_loser
    {x : X}
    (hSorted : Sorted es)
    (hNone : ∀ a ∈ es, a.slot = x → a.lsn ≤ redoneLsn es p → a.winner = true)
    (m : Nat) :
    (undoAll ((losers es).reverse.take m) (redoAll (winners es) p)).val x =
      redone es p x := by
  rw [undoAll_take_val hSorted]
  have hNil : on x (upto (redoneLsn es p) ((losers es).reverse.take m)) = [] := by
    rw [List.eq_nil_iff_forall_not_mem]
    intro a hA
    rw [mem_on, mem_upto] at hA
    have hLoser : a ∈ losers es := List.mem_reverse.mp (List.mem_of_mem_take hA.1.1)
    rw [mem_losers] at hLoser
    have := hNone a hLoser.1 hA.2 hA.1.2
    rw [hLoser.2] at this
    cases this
  rw [hNil, rollback_nil]

/- Undo that passed a slot's earliest loser left its image. -/
theorem undoAll_take_val_of_loser
    {x : X}
    {u w : Entry X V}
    {m : Nat}
    (hSorted : Sorted es)
    (hFirst : firstLoser x es = some w)
    (hHas : w.lsn ≤ redoneLsn es p)
    (hU : u ∈ (losers es).reverse.take m)
    (hLt : u.lsn < w.lsn) :
    (undoAll ((losers es).reverse.take m) (redoAll (winners es) p)).val x =
      w.before := by
  rcases firstLoser_spec hSorted hFirst with ⟨hMem, hSlot, hLoses, hEarlier⟩
  have hDesc := sorted_losers_reverse hSorted
  have hVisited : w ∈ (losers es).reverse.take m := mem_take_of_lsn_lt hDesc hU
      (List.mem_reverse.mpr (mem_losers.mpr ⟨hMem, hLoses⟩)) hLt
  rw [undoAll_take_val hSorted]
  apply rollback_eq_lowest
  · have hTake := hDesc.sublist (List.take_sublist m (losers es).reverse)
    exact List.Pairwise.filter _ (List.Pairwise.filter _ hTake)
  · simp [hVisited, hHas, hSlot]
  · intro a hA
    rw [mem_on, mem_upto] at hA
    have hLoser : a ∈ losers es := List.mem_reverse.mp (List.mem_of_mem_take hA.1.1)
    rw [mem_losers] at hLoser
    by_contra hBelow
    have := hEarlier a hLoser.1 hA.2 (by omega)
    rw [hLoser.2] at this
    cases this

/- Stopped in its undo phase, with the page LSN already
  lowered, recovery ends with the same values when run again. -/
theorem recover_undoAll_take
    (hHistory : History v0 es)
    (hFaithful : p.Faithful v0 es)
    (m : Nat)
    (x : X) :
    (recover es (undoAll ((losers es).reverse.take m)
      (redoAll (winners es) p))).val x =
      (recover es p).val x := by
  have hSorted := hHistory.sorted
  have hLow : p.lsn ≤ redoneLsn es p := lsn_le_redoAll (winners es) p
  have hTake : ((losers es).reverse.take m).Pairwise (fun a b => b.lsn < a.lsn) :=
    (sorted_losers_reverse hSorted).sublist (List.take_sublist m _)
  rcases undoAll_lsn_cases hTake (redoAll (winners es) p) with
    hSame | ⟨u, hU, hULe, hULsn⟩
  · rw [hSame]
    have hIdle : redoAll (winners es) (redoAll (winners es) p) = redoAll (winners es) p :=
      redoAll_of_le (fun e hMem => mem_lsn_le_redoAll p hMem)
    rw [recover_congr hIdle]
  · set q := undoAll ((losers es).reverse.take m) (redoAll (winners es) p) with hq
    have hQLe : q.lsn ≤ redoneLsn es p := by
      rw [hULsn]
      exact hULe
    have hAgain := redoneLsn_le hQLe
    rw [recover_val hSorted, recover_val hSorted]
    -- without a covered loser the slot holds the winners
    have hClean : (∀ a ∈ es, a.slot = x → a.lsn ≤ redoneLsn es p → a.winner = true) →
        redone es q x = redone es p x := by
      intro hNone
      have hWin : redone es p x = replay (v0 x) (on x (winners es)) :=
        redone_eq_winners hSorted hFaithful (fun a hA hSlot hLe =>
            hNone a hA hSlot (le_trans hLe hLow))
      rw [hWin]
      apply redone_of_winners hSorted
      rw [hq, undoAll_take_val_of_no_loser hSorted hNone, hWin]
    cases hLoser : firstLoser x es with
    | none =>
      exact hClean (fun a hA hSlot _ => winners_of_firstLoser_none hLoser a hA hSlot)
    | some w =>
      rcases firstLoser_spec hSorted hLoser with ⟨_, _, _, hEarlier⟩
      by_cases hHas : w.lsn ≤ redoneLsn es p
      · by_cases hStill : w.lsn ≤ redoneLsn es q
        · simp [hHas, hStill]
        · -- the second redo ends below the undone loser
          simp only [hHas, hStill, if_true, if_false]
          have hULt : u.lsn < w.lsn := by
            have : q.lsn ≤ redoneLsn es q := lsn_le_redoAll (winners es) q
            omega
          have hVal : q.val x = w.before := by
            exact undoAll_take_val_of_loser hSorted hLoser hHas hU hULt
          have hAll : w.before = replay (v0 x) (on x (winners es)) := by
            apply firstLoser_before_all hHistory hLoser
            intro a hA _
            have : a.lsn ≤ redoneLsn es q := mem_lsn_le_redoAll q hA
            omega
          rw [hAll]
          exact redone_of_winners hSorted (hVal.trans hAll)
      · have hStill : ¬ w.lsn ≤ redoneLsn es q := by omega
        simp only [hHas, hStill, if_false]
        exact hClean (fun a hA hSlot hLe => hEarlier a hA hSlot (by omega))

/- Recovery may be stopped after any of its steps: run again
  from the image it left, it ends with the same values. -/
theorem recover_restart
    (hHistory : History v0 es)
    (hFaithful : p.Faithful v0 es)
    (n : Nat)
    (x : X) :
    (recover es (interrupted es n p)).val x = (recover es p).val x := by
  rcases interrupted_cases es n p with hRedo | ⟨m, hUndo⟩
  · rw [hRedo, recover_congr (redoAll_take (winners es) n p)]
  · rw [hUndo]
    exact recover_undoAll_take hHistory hFaithful m x

end Restart

end PageRecovery
