import Mathlib.Algebra.BigOperators.Group.List.Basic
import Mathlib.Algebra.Group.Pi.Basic
import Mathlib.Algebra.Ring.Nat

/-
  This file is about cursors: objects that are started, asked
  whether they are at their end, asked for a record and moved
  to the next one.  To start or to move a cursor may throw.  A
  cursor may also hand out several records at once, and it
  counts the records it hands out.

  `Stream` relates the state of a cursor to the records that
  are still to come and to what is thrown behind them.  A
  cursor may say that it is at its end as soon as its last
  record was fetched, and not only when it is moved on; `cut`
  says after how many records it does.

  Key definitions include:
    * `Cursor`
    * `Cursor.Stream`
    * `Cursor.Serves`

  Key theorems include:
    * `Cursor.Steps.pull_spec`
    * `Cursor.Steps.drain_spec`
    * `Cursor.Stream.drainBatches_spec`
-/

namespace Rmdb

variable {E R S S' : Type}

/- Fetch records and move on, until there are enough or the
  end is reached. -/
def pull
    (isEnd : S → Bool)
    (next : S → S × Option R)
    (nextTuple : S → Except E S) :
    Nat → Nat → S → Except E (S × List R)
| 0, _, s => .ok (s, [])
| fuel + 1, k, s =>
  if k = 0 ∨ isEnd s = true then
    .ok (s, [])
  else do
    let p := next s
    let s' ← nextTuple p.1
    let q ← pull isEnd next nextTuple fuel (k - p.2.toList.length) s'
    return (q.1, p.2.toList ++ q.2)

structure Cursor (E R : Type) where
  State : Type
  init : State
  beginTuple : State → Except E State
  nextTuple : State → Except E State
  isEnd : State → Bool
  next : State → State × Option R
  -- no run hands out more records
  bound : Nat
  nextBatch : Nat → State → Except E (State × List R) := pull isEnd next nextTuple bound
  -- tell the cursor which record its own ones have to match
  bind : R → State → Except E State := fun _ s => .ok s
  -- the counter of each node below, by its path
  rows : State → List Bool → Nat := fun _ _ => 0

namespace Cursor

/- The same until the end is reached. -/
def drain
    (c : Cursor E R)
    (fuel : Nat)
    (s : c.State) :
    Except E (c.State × List R) :=
  pull c.isEnd c.next c.nextTuple fuel fuel s

/- Fetch batches until one is empty or the end is reached. -/
def drainBatches
    (c : Cursor E R)
    (k : Nat) :
    Nat → c.State → Except E (c.State × List (List R))
| 0, s => .ok (s, [])
| fuel + 1, s =>
  if c.isEnd s then
    .ok (s, [])
  else do
    let p ← c.nextBatch k s
    if p.2.length = 0 then
      return (p.1, [])
    else
      let q ← c.drainBatches k fuel p.1
      return (q.1, p.2 :: q.2)

/- Start over, for a given record or without one. -/
def restart (c : Cursor E R) : Option R → c.State → Except E c.State
| none, s => c.beginTuple s
| some r, s => do c.beginTuple (← c.bind r s)

/- The first record from here on that passes. A missing record
  is passed over or ends the search. -/
def seek
    (c : Cursor E R)
    (giveUp : Bool)
    (ok : R → Bool) :
    Nat → c.State → Except E (c.State × Option R)
| 0, s => .ok (s, none)
| fuel + 1, s =>
  if c.isEnd s then
    .ok (s, none)
  else
    let p := c.next s
    if p.2.any ok || (p.2.isNone && giveUp) then
      .ok p
    else do
      c.seek giveUp ok fuel (← c.nextTuple p.1)

------------
-- What Is Still To Come
------------

/- What comes after the last record. -/
structure Tail (E : Type) where
  -- what moving on from there throws
  thrown : Option E
  -- what a batch throws that ends there, because it looks further than single steps do
  ahead : Option E
  calm : ahead = none → thrown = none

/- Steps that throw are seen by batches too. -/
def Tail.plain (thrown : Option E) : Tail E :=
  ⟨thrown, thrown, id⟩

/- A move throws if nothing but an exception is to come, and
  leads to a good state otherwise. -/
def Reaches
    (x : Except E S)
    (rs : List R)
    (thrown : Option E)
    (P : S → Prop) :
    Prop :=
  (∃ e, x = .error e ∧ rs = [] ∧ thrown = some e) ∨
    (rs = [] → thrown = none) ∧ ∃ s, x = .ok s ∧ P s

section Reaches

variable {x : Except E S} {rs rs' : List R} {thrown : Option E} {P : S → Prop}

theorem Reaches.of_none (hX : Reaches x rs none P) : ∃ s, x = .ok s ∧ P s := by
  rcases hX with ⟨e, -, -, hNone⟩ | ⟨-, hOk⟩
  · cases hNone
  · exact hOk

theorem Reaches.map
    {Q : S' → Prop}
    {f : S → S'}
    (hX : Reaches x rs thrown P)
    (hNil : rs = [] ↔ rs' = [])
    (hF : ∀ s, P s → Q (f s)) :
    Reaches (x.map f) rs' thrown Q := by
  rcases hX with ⟨e, rfl, hRs, hThrown⟩ | ⟨hSome, s, rfl, hP⟩
  · exact Or.inl ⟨e, rfl, hNil.mp hRs, hThrown⟩
  · exact Or.inr ⟨fun hRs => hSome (hNil.mpr hRs), f s, rfl, hF s hP⟩

theorem Reaches.imp
    {Q : S → Prop}
    (hX : Reaches x rs thrown P)
    (hQ : ∀ s, P s → Q s) :
    Reaches x rs thrown Q := by
  rcases hX with hErr | ⟨hSome, s, hOk, hP⟩
  · exact Or.inl hErr
  · exact Or.inr ⟨hSome, s, hOk, hQ s hP⟩

end Reaches

/- `At s n rs e T`: after `n` records the records `rs` and
  then `e` are still to come, and the counters will be `T`.
  `Got` is the same when the last record was fetched and the
  cursor was not moved on. -/
structure Steps (c : Cursor E R)
    (At Got : c.State → Nat → List R → Tail E → (List Bool → Nat) → Prop)
    (cut : Nat → Bool) : Prop where
  isEnd : ∀ {s n rs e T}, At s n rs e T → c.isEnd s = rs.isEmpty
  next : ∀ {s n r rs e T}, At s n (r :: rs) e T →
    (c.next s).2 = some r ∧ Got (c.next s).1 (n + 1) rs e T
  nextTuple : ∀ {s n rs e T}, Got s n rs e T →
    Reaches (c.nextTuple s) rs e.thrown (fun s' => At s' n rs e T)
  stops : ∀ {s n rs e T}, Got s n rs e T →
    c.isEnd s = (rs.isEmpty && e.thrown.isNone && cut n)
  room : ∀ {s n rs e T}, Got s n rs e T → rs.length < c.bound

structure Stream (c : Cursor E R)
    (At Got : c.State → Nat → List R → Tail E → (List Bool → Nat) → Prop)
    (cut : Nat → Bool) : Prop extends Steps c At Got cut where
  batch : ∀ {s n rs e T} (k : Nat), At s n rs e T → e.ahead = none →
    ∃ s', c.nextBatch k s = .ok (s', rs.take k) ∧
      At s' (n + (rs.take k).length) (rs.drop k) e T

/- What a cursor hands out when it is started over; an inner
  one needs a record for it. At the end the counters are
  right, if the cursor is a clean one. -/
def Serves
    (c : Cursor E R)
    (inner : Bool)
    (rowsFor : Option R → List R)
    (tailFor : Option R → Tail E)
    (cut : Nat → Bool)
    (counts : Option R → List Bool → Nat)
    (clean : Prop) :
    Prop :=
  ∃ At Got, Stream c At Got cut ∧
    (∀ key s, (key = none → inner = false) →
      Reaches (c.restart key s) (rowsFor key) (tailFor key).thrown
        (fun s' => At s' 0 (rowsFor key) (tailFor key) (c.rows s + counts key))) ∧
    ∀ s n e T, clean → At s n [] e T → c.rows s = T

section Loops

variable {c : Cursor E R}
variable {At Got : c.State → Nat → List R → Tail E → (List Bool → Nat) → Prop}
variable {cut : Nat → Bool} {s : c.State} {n k : Nat} {rs : List R} {e : Tail E}
variable {T : List Bool → Nat}

/- All batches together are the records, and only the last one
  may be short. -/
theorem Stream.drainBatches_spec
    (hStream : Stream c At Got cut)
    (hAt : At s n rs e T)
    (hCalm : e.ahead = none)
    (hK : 1 ≤ k)
    {fuel : Nat}
    (hFuel : rs.length < fuel) :
    ∃ s' batches, c.drainBatches k fuel s = .ok (s', batches) ∧
      batches.flatten = rs ∧
      (∀ batch ∈ batches.dropLast, batch.length = k) ∧
      (∀ batch ∈ batches, batch ≠ [] ∧ batch.length ≤ k) ∧
      c.isEnd s' = true := by
  induction fuel generalizing s n rs with
  | zero => omega
  | succ fuel ih =>
    have hEnd := hStream.isEnd hAt
    cases rs with
    | nil => exact ⟨s, [], by simp [drainBatches, hEnd], rfl, by simp, by simp, hEnd⟩
    | cons r rs =>
      rcases hStream.batch k hAt hCalm with ⟨s₁, hBatch, hAfter⟩
      obtain ⟨m, rfl⟩ : ∃ m, k = m + 1 := ⟨k - 1, by omega⟩
      have hSome : ¬ ((r :: rs).take (m + 1)).length = 0 := by simp
      rcases ih hAfter (by simp at hFuel ⊢; omega) with
        ⟨s₂, batches, hRest, hFlat, hFull, hMost, hLast⟩
      refine ⟨s₂, (r :: rs).take (m + 1) :: batches, ?_, ?_, ?_, ?_, hLast⟩
      · simp only [drainBatches, hEnd, hBatch, List.isEmpty_cons, Bool.false_eq_true, if_false]
        simp only [Bind.bind, Except.bind, hRest, if_neg hSome]
        rfl
      · rw [List.flatten_cons, hFlat, List.take_append_drop]
      · cases batches with
        | nil => simp
        | cons batch batches =>
          rw [List.dropLast_cons_cons, List.forall_mem_cons]
          refine ⟨?_, hFull⟩
          -- something is left, so the batch is a full one
          by_contra hShort
          have hDrop : (r :: rs).drop (m + 1) = [] := by
            apply List.drop_of_length_le
            rw [List.length_take] at hShort
            omega
          rw [hDrop, List.flatten_eq_nil_iff] at hFlat
          exact (hMost batch List.mem_cons_self).1 (hFlat batch List.mem_cons_self)
      · rw [List.forall_mem_cons]
        exact ⟨⟨by simp, List.length_take_le _ _⟩, hMost⟩

variable (hSteps : Steps c At Got cut)
include hSteps

theorem Steps.short (hAt : At s n rs e T) : rs.length ≤ c.bound := by
  cases rs with
  | nil => exact Nat.zero_le _
  | cons r rs => exact hSteps.room (hSteps.next hAt).2

/- A run that starts, or throws at once, is short. -/
theorem Steps.short_of_reaches
    {x : Except E c.State}
    {thrown : Option E}
    (hX : Reaches x rs thrown (fun s' => At s' n rs e T)) :
    rs.length ≤ c.bound := by
  rcases hX with ⟨err, -, rfl, -⟩ | ⟨-, s', -, hAt⟩
  · exact Nat.zero_le _
  · exact hSteps.short hAt

/- Fetching some records, when all of them come and nothing is
  thrown behind the last. -/
theorem Steps.pull_spec
    (hAt : At s n rs e T)
    {fuel : Nat}
    (hFuel : (rs.take k).length ≤ fuel)
    (hCalm : e.thrown = none) :
    ∃ s', pull c.isEnd c.next c.nextTuple fuel k s = .ok (s', rs.take k) ∧
      At s' (n + (rs.take k).length) (rs.drop k) e T := by
  induction fuel generalizing s n rs k with
  | zero =>
    have hNone : rs.take k = [] := List.length_eq_zero_iff.mp (Nat.le_zero.mp hFuel)
    have hAll : rs.drop k = rs := by
      rcases List.take_eq_nil_iff.mp hNone with rfl | rfl
      · rfl
      · exact List.drop_nil
    rw [hNone, hAll]
    exact ⟨s, rfl, hAt⟩
  | succ fuel ih =>
    have hEnd := hSteps.isEnd hAt
    cases k with
    | zero => exact ⟨s, by simp [pull], by simpa using hAt⟩
    | succ k =>
      cases rs with
      | nil => exact ⟨s, by simp [pull, hEnd], by simpa using hAt⟩
      | cons r rs =>
        rcases hSteps.next hAt with ⟨hRow, hGot⟩
        have hMove := hSteps.nextTuple hGot
        rw [hCalm] at hMove
        rcases hMove.of_none with ⟨s₁, hS₁, hAt₁⟩
        rcases ih (k := k) hAt₁ (by simpa using hFuel) with ⟨s₂, hS₂, hAfter⟩
        refine ⟨s₂, ?_, ?_⟩
        · simp only [pull, hEnd, hRow, hS₁, Bind.bind, Except.bind, Option.toList_some,
            List.length_singleton, Nat.add_sub_cancel, hS₂]
          simp [pure, Except.pure]
        · rw [List.take_succ_cons, List.drop_succ_cons, List.length_cons]
          rwa [Nat.add_assoc, Nat.add_comm 1] at hAfter

/- A cursor whose batches are made of single steps. -/
theorem Steps.toStream
    (hBatch : ∀ k s, c.nextBatch k s =
      pull c.isEnd c.next c.nextTuple c.bound k s) :
    Stream c At Got cut := by
  refine ⟨hSteps, ?_⟩
  intro s n rs e T k hAt hCalm
  rw [hBatch]
  refine hSteps.pull_spec hAt (Nat.le_trans ?_ (hSteps.short hAt)) (e.calm hCalm)
  rw [List.length_take]
  exact Nat.min_le_right _ _

/- The loop over all records ends with them, or it throws what
  is behind them. -/
theorem Steps.drain_spec
    (hAt : At s n rs e T)
    (hSome : rs = [] → e.thrown = none)
    {fuel : Nat}
    (hFuel : rs.length ≤ fuel) :
    (∃ err, e.thrown = some err ∧ c.drain fuel s = .error err) ∨
      ∃ s', e.thrown = none ∧ c.drain fuel s = .ok (s', rs) ∧
        At s' (n + rs.length) [] e T := by
  cases hThrown : e.thrown with
  | none =>
    have hAll : rs.take fuel = rs := List.take_of_length_le hFuel
    have hLen : (rs.take fuel).length ≤ fuel := hAll.symm ▸ hFuel
    have hPull := hSteps.pull_spec hAt hLen hThrown
    rw [hAll, List.drop_of_length_le hFuel] at hPull
    rcases hPull with ⟨s', hRun, hEnd⟩
    exact Or.inr ⟨s', rfl, hRun, hEnd⟩
  | some err =>
    refine Or.inl ⟨err, rfl, ?_⟩
    unfold drain
    -- the number of records that are asked for does not matter while it is large enough
    have hPull : ∀ fuel k s n, At s n rs e T → rs ≠ [] → rs.length ≤ fuel → rs.length ≤ k →
        pull c.isEnd c.next c.nextTuple fuel k s = .error err := by
      clear hAt hFuel hSome
      induction rs with
      | nil => exact fun _ _ _ _ _ hNe => absurd rfl hNe
      | cons r rs ih =>
        intro fuel k s n hAt _ hFuel hK
        obtain ⟨fuel, rfl⟩ : ∃ m, fuel = m + 1 := ⟨fuel - 1, by simp at hFuel; omega⟩
        obtain ⟨k, rfl⟩ : ∃ m, k = m + 1 := ⟨k - 1, by simp at hK; omega⟩
        rcases hSteps.next hAt with ⟨hRow, hGot⟩
        simp only [pull, hSteps.isEnd hAt, hRow, List.isEmpty_cons, Nat.add_eq_zero_iff,
          Nat.one_ne_zero, and_false, Bool.false_eq_true, or_self, if_false]
        rcases hSteps.nextTuple hGot with ⟨err', hMove, -, hErr⟩ | ⟨hMore, s', hMove, hAt'⟩
        · cases hThrown.symm.trans hErr
          simp only [hMove, Bind.bind, Except.bind]
        · have hNe : rs ≠ [] := by
            intro hNil
            rw [hThrown] at hMore
            cases hMore hNil
          simp only [hMove, Bind.bind, Except.bind, Option.toList_some, List.length_singleton,
            Nat.add_sub_cancel]
          rw [ih fuel k s' _ hAt' hNe (by simpa using hFuel) (by simpa using hK)]
    refine hPull fuel fuel s n hAt ?_ hFuel hFuel
    intro hNil
    rw [hThrown] at hSome
    cases hSome hNil

/- The search stops at the first record to come that passes,
  at the end or at an exception. -/
theorem Steps.seek_spec
    {g : Bool}
    {p : R → Bool}
    (hAt : At s n rs e T)
    (hSome : rs = [] → e.thrown = none)
    {fuel : Nat}
    (hFuel : rs.length < fuel) :
    Reaches (c.seek g p fuel s) (rs.filter p) e.thrown (fun q =>
      q.2 = none ∧ rs.filter p = [] ∧ (∃ m, At q.1 m [] e T) ∨
        ∃ r m later, q.2 = some r ∧ rs.filter p = r :: later.filter p ∧
        Got q.1 m later e T) := by
  induction fuel generalizing s n rs with
  | zero => omega
  | succ fuel ih =>
    have hEnd := hSteps.isEnd hAt
    cases rs with
    | nil =>
      refine Or.inr ⟨hSome, (s, none), ?_, Or.inl ⟨rfl, rfl, n, hAt⟩⟩
      simp [seek, hEnd]
    | cons r rs =>
      rcases hSteps.next hAt with ⟨hRow, hGot⟩
      by_cases hOk : p r = true
      · refine Or.inr ⟨by simp [hOk], c.next s, ?_,
          Or.inr ⟨r, n + 1, rs, hRow, by simp [hOk], hGot⟩⟩
        simp [seek, hEnd, hRow, hOk]
      · rw [List.filter_cons_of_neg hOk]
        have hSeek : c.seek g p (fuel + 1) s = (c.nextTuple (c.next s).1 >>= c.seek g p fuel) := by
          simp [seek, hEnd, hRow, hOk]
        rw [hSeek]
        rcases hSteps.nextTuple hGot with ⟨err, hMove, hNil, hErr⟩ | ⟨hMore, s', hMove, hAt'⟩
        · exact Or.inl ⟨err, by rw [hMove]; rfl, by rw [hNil]; rfl, hErr⟩
        · rw [hMove]
          exact ih hAt' hMore (by simpa using hFuel)

end Loops

end Cursor

end Rmdb
