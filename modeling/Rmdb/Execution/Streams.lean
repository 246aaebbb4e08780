import Rmdb.Execution.Executors
import Mathlib.Algebra.Order.BigOperators.Group.List

/-
  This file says what each executor hands out, given what the
  executors below it hand out: the records in their order,
  what is thrown behind them, whether it is at its end as soon
  as the last one was fetched, and the counters of its tree
  afterwards.

  Key theorems include:
    * `serves_scanExecutor`
    * `serves_filterExecutor`
    * `serves_limitExecutor`
    * `serves_nestedLoopJoinExecutor`
    * `serves_bufferedExecutor`
-/

namespace Rmdb

open Cursor

variable {E R : Type}

theorem node_add
    (a b : Nat)
    (l l' r r' : List Bool → Nat) :
    node a l r + node b l' r' = node (a + b) (l + l') (r + r') := by
  funext path
  rcases path with _ | ⟨_ | _, path⟩ <;> rfl

------------
-- Scans
------------

/- The records that a scan hands out from a record on, and
  what it throws behind them. -/
def Source.read
    (src : Source E R)
    (key : Option R) :
    List R → List R × Option E
| [] => ([], src.leave key)
| r :: rs =>
  match src.visit key r with
  | .error e => ([], some e)
  | .ok true => (r :: (src.read key rs).1, (src.read key rs).2)
  | .ok false => src.read key rs

/- What a scan hands out when it is started; without a key an
  inner one hands out nothing. -/
def Source.serve
    (src : Source E R)
    (bindJoinKey : Option (R → Except E R))
    (key : Option R) :
    List R × Option E :=
  match bindJoinKey, key with
  | none, _ => src.read none src.recs
  | some _, none => ([], none)
  | some bindKey, some l =>
    match bindKey l with
    | .error e => ([], some e)
    | .ok k => src.read (some k) src.recs

/- Going on leads to the first record that passes, to the end
  or to an exception. -/
theorem Source.advance_cases
    (src : Source E R)
    (key : Option R)
    (l : List R) :
    (∃ e, src.advance key l = .error e ∧ src.read key l = ([], some e)) ∨
      (src.advance key l = .ok [] ∧ src.read key l = ([], none)) ∨
      ∃ r tl, src.advance key l = .ok (r :: tl) ∧
        src.read key l = (r :: (src.read key tl).1, (src.read key tl).2) ∧
        tl.length < l.length := by
  induction l with
  | nil =>
    cases hLeave : src.leave key with
    | none => exact Or.inr (Or.inl ⟨by simp [advance, hLeave], by simp [read, hLeave]⟩)
    | some e => exact Or.inl ⟨e, by simp [advance, hLeave], by simp [read, hLeave]⟩
  | cons r l ih =>
    cases hVisit : src.visit key r with
    | error e => exact Or.inl ⟨e, by simp [advance, hVisit], by simp [read, hVisit]⟩
    | ok pass =>
      cases pass with
      | true =>
        refine Or.inr (Or.inr ⟨r, l, ?_, ?_, by simp⟩)
        · simp [advance, hVisit]
        · simp [read, hVisit]
      | false =>
        simp only [advance, read, hVisit]
        rcases ih with hErr | hNil | ⟨r', tl, hOk, hRead, hLen⟩
        · exact Or.inl hErr
        · exact Or.inr (Or.inl hNil)
        · exact Or.inr (Or.inr ⟨r', tl, hOk, hRead, Nat.lt_succ_of_lt hLen⟩)

theorem Source.length_read_le
    (src : Source E R)
    (key : Option R)
    (l : List R) :
    (src.read key l).1.length ≤ l.length := by
  induction l with
  | nil => exact Nat.zero_le _
  | cons r l ih =>
    rw [read]
    split
    · exact Nat.zero_le _
    · exact Nat.succ_le_succ ih
    · exact Nat.le_succ_of_le ih

/- A scan that does not look at the key. -/
theorem Source.congr
    {src : Source E R}
    {key key' : Option R}
    (hVisit : src.visit key = src.visit key')
    (hLeave : src.leave key = src.leave key')
    (l : List R) :
    src.advance key l = src.advance key' l ∧
      src.read key l = src.read key' l := by
  induction l with
  | nil => simp [advance, read, hLeave]
  | cons r l ih => simp [advance, read, hVisit, ih.1, ih.2]

def ScanAt
    (src : Source E R)
    (s : ScanState R)
    (_ : Nat)
    (rs : List R)
    (e : Tail E)
    (T : List Bool → Nat) :
    Prop :=
  ∃ l thrown, e = .plain thrown ∧ src.advance s.key l = .ok s.todo ∧
    src.read s.key l = (rs, thrown) ∧ l.length ≤ src.recs.length ∧
    T = node (s.rows + rs.length) 0 0

def ScanGot
    (src : Source E R)
    (s : ScanState R)
    (_ : Nat)
    (rs : List R)
    (e : Tail E)
    (T : List Bool → Nat) :
    Prop :=
  ∃ r tl thrown, e = .plain thrown ∧ s.todo = r :: tl ∧ src.read s.key tl = (rs, thrown) ∧
    tl.length < src.recs.length ∧ T = node (s.rows + rs.length) 0 0

theorem reaches_advance
    {src : Source E R}
    {s : ScanState R}
    {n : Nat}
    {l : List R}
    {q : List R × Option E}
    {T : List Bool → Nat}
    (hRead : src.read s.key l = q)
    (hLen : l.length ≤ src.recs.length)
    (hT : T = node (s.rows + q.1.length) 0 0) :
    Reaches ((src.advance s.key l).map (fun l' => { s with todo := l' }))
      q.1 q.2
      (fun s' => ScanAt src s' n q.1 (.plain q.2) T) := by
  rcases src.advance_cases s.key l with ⟨e, hAdv, hErr⟩ | ⟨hAdv, hNil⟩ | ⟨r, tl, hAdv, hSome, -⟩
  · rw [hRead] at hErr
    exact Or.inl ⟨e, by rw [hAdv]; rfl, by rw [hErr], by rw [hErr]⟩
  · rw [hRead] at hNil
    rw [hAdv]
    exact Or.inr ⟨fun _ => by rw [hNil], _, rfl, l, q.2, rfl, hAdv, hRead, hLen, hT⟩
  · rw [hRead] at hSome
    rw [hAdv]
    refine Or.inr ⟨fun hRs => ?_, _, rfl, l, q.2, rfl, hAdv, hRead, hLen, hT⟩
    rw [hSome] at hRs
    exact absurd hRs (List.cons_ne_nil _ _)

/- A scan that is not an inner one does not look at the key. -/
theorem serves_scanExecutor
    (src : Source E R)
    (bindJoinKey : Option (R → Except E R))
    (hKey : bindJoinKey = none → ∀ key, src.visit key = src.visit none ∧
      src.leave key = src.leave none) :
    Serves (scanExecutor src bindJoinKey) bindJoinKey.isSome
      (fun key => (src.serve bindJoinKey key).1)
      (fun key => .plain (src.serve bindJoinKey key).2) (fun _ => false)
      (fun key => node (src.serve bindJoinKey key).1.length 0 0) True := by
  refine ⟨ScanAt src, ScanGot src,
    Steps.toStream ⟨?_, ?_, ?_, ?_, ?_⟩ (fun _ _ => rfl), ?_, ?_⟩
  · rintro s n rs e T ⟨l, thrown, -, hTodo, hRead, -⟩
    rcases src.advance_cases s.key l with ⟨e, hAdv, -⟩ | ⟨hAdv, hNil⟩ | ⟨r, tl, hAdv, hSome, -⟩
    · cases hTodo.symm.trans hAdv
    · rw [hRead, Prod.mk.injEq] at hNil
      have hSame := Except.ok.inj (hTodo.symm.trans hAdv)
      simp [scanExecutor, hSame, hNil.1]
    · rw [hRead, Prod.mk.injEq] at hSome
      have hSame := Except.ok.inj (hTodo.symm.trans hAdv)
      simp [scanExecutor, hSame, hSome.1]
  · rintro s n r rs e T ⟨l, thrown, hE, hTodo, hRead, hLen, rfl⟩
    rcases src.advance_cases s.key l with ⟨e, hAdv, -⟩ | ⟨hAdv, hNil⟩ | ⟨r', tl, hAdv, hSome, hLt⟩
    · cases hTodo.symm.trans hAdv
    · rw [hRead, Prod.mk.injEq] at hNil
      exact absurd hNil.1 (List.cons_ne_nil r rs)
    · rw [hRead, Prod.mk.injEq, List.cons.injEq] at hSome
      rcases hSome with ⟨⟨rfl, hRs⟩, hThrown⟩
      have hSame := Except.ok.inj (hTodo.symm.trans hAdv)
      have hNext : (scanExecutor src bindJoinKey).next s =
          ({ s with rows := s.rows + 1 }, some r) := by
        simp only [scanExecutor, hSame]
      rw [hNext]
      refine ⟨rfl, r, tl, thrown, hE, hSame, by rw [hRs, hThrown], by omega, ?_⟩
      simp [Nat.add_assoc, Nat.add_comm 1]
  · rintro s n rs e T ⟨r, tl, thrown, rfl, hTodo, hRead, hLen, hT⟩
    have hNext : (scanExecutor src bindJoinKey).nextTuple s =
        (src.advance s.key tl).map (fun l => { s with todo := l }) := by
      simp only [scanExecutor, hTodo]
    rw [hNext]
    exact reaches_advance (q := (rs, thrown)) hRead hLen.le hT
  · rintro s n rs e T ⟨r, tl, thrown, -, hTodo, -⟩
    simp [scanExecutor, hTodo]
  · rintro s n rs e T ⟨r, tl, thrown, -, -, hRead, hLen, -⟩
    have hLe := src.length_read_le s.key tl
    rw [hRead] at hLe
    exact Nat.lt_of_le_of_lt hLe hLen
  · intro key s hFree
    have hCounts := node_add s.rows (src.serve bindJoinKey key).1.length 0 0 0 0
    cases bindJoinKey with
    | none =>
      rcases hKey rfl s.key with ⟨hVisit, hLeave⟩
      have hState : (scanExecutor src none).restart key s =
          (src.advance s.key src.recs).map (fun l => { s with todo := l }) := by
        cases key <;> rfl
      rw [hState]
      exact reaches_advance (q := src.serve none key) (src.congr hVisit hLeave src.recs).2
        (Nat.le_refl _) hCounts
    | some bindKey =>
      cases key with
      | none => exact absurd (hFree rfl) (by simp)
      | some l =>
        cases hBind : bindKey l with
        | error e =>
          refine Or.inl ⟨e, ?_, ?_, ?_⟩
          · simp [restart, scanExecutor, hBind, Except.map, Bind.bind, Except.bind]
          · simp [Source.serve, hBind]
          · simp [Source.serve, hBind, Tail.plain]
        | ok k =>
          have hServe : src.read (some k) src.recs = src.serve (some bindKey) (some l) := by
            simp [Source.serve, hBind]
          have hState : (scanExecutor src (some bindKey)).restart (some l) s =
              (src.advance (some k) src.recs).map
                (fun l => { s with key := some k, todo := l }) := by
            simp [restart, scanExecutor, hBind, Except.map, Bind.bind, Except.bind]
          rw [hState]
          exact reaches_advance (s := { s with key := some k }) hServe (Nat.le_refl _) hCounts
  · rintro s n e T - ⟨l, thrown, -, -, -, -, rfl⟩
    rfl

------------
-- Filter, Projection, Renaming And Limit
------------

section Unary

variable {prev : Cursor E R} {inner : Bool} {rowsFor : Option R → List R}
variable {tailFor : Option R → Tail E} {cut : Nat → Bool}
variable {counts : Option R → List Bool → Nat} {clean : Prop}
variable {At Got : prev.State → Nat → List R → Tail E → (List Bool → Nat) → Prop}

/- An executor that binds and starts the one below. -/
theorem restart_map
    {c : Cursor E R}
    {p : prev.State → c.State}
    {f : prev.State → Except E c.State}
    (s : prev.State)
    (hBind : ∀ r, c.bind r (p s) = (prev.bind r s).map p)
    (hBegin : ∀ s, c.beginTuple (p s) = prev.beginTuple s >>= f)
    (key : Option R) :
    c.restart key (p s) = prev.restart key s >>= f := by
  cases key with
  | none => exact hBegin s
  | some r =>
    rw [restart, restart, hBind]
    cases prev.bind r s with
    | error e => rfl
    | ok s' => exact hBegin s'

def FilterAt
    (At Got : prev.State → Nat → List R → Tail E → (List Bool → Nat) → Prop)
    (conds : R → Bool)
    (s : FilterState prev.State R)
    (_ : Nat)
    (rs : List R)
    (e : Tail E)
    (T : List Bool → Nat) :
    Prop :=
  ∃ e' T', e = .plain e'.thrown ∧ T = node (s.rows + rs.length) T' 0 ∧
    (s.cur = none ∧ rs = [] ∧ (∃ m, At s.prev m [] e' T') ∨
      ∃ r m later, s.cur = some r ∧ rs = r :: later.filter conds ∧ Got s.prev m later e' T')

def FilterGot
    (Got : prev.State → Nat → List R → Tail E → (List Bool → Nat) → Prop)
    (conds : R → Bool)
    (s : FilterState prev.State R)
    (_ : Nat)
    (rs : List R)
    (e : Tail E)
    (T : List Bool → Nat) :
    Prop :=
  ∃ e' T', e = .plain e'.thrown ∧ T = node (s.rows + rs.length) T' 0 ∧
    ∃ r m later, s.cur = some r ∧ rs = later.filter conds ∧ Got s.prev m later e' T'

theorem reaches_findNextValid
    (hSteps : Steps prev At Got cut)
    {conds : R → Bool}
    {rows m : Nat}
    {x : Except E prev.State}
    {rs : List R}
    {e : Tail E}
    {T : List Bool → Nat}
    {n : Nat}
    (hX : Reaches x rs e.thrown (fun s => At s n rs e T)) :
    Reaches (x >>= findNextValid prev conds rows) (rs.filter conds) e.thrown
      (fun s' => FilterAt At Got conds s' m (rs.filter conds) (.plain e.thrown)
        (node (rows + (rs.filter conds).length) T 0)) := by
  rcases hX with ⟨err, rfl, hNil, hErr⟩ | ⟨hSome, s, rfl, hAt⟩
  · exact Or.inl ⟨err, rfl, by rw [hNil]; rfl, hErr⟩
  · refine (hSteps.seek_spec hAt hSome (Nat.lt_succ_of_le (hSteps.short hAt))).map Iff.rfl ?_
    exact fun q hQ => ⟨e, T, rfl, rfl, hQ⟩

theorem serves_filterExecutor (conds : R → Bool)
    (hPrev : Serves prev inner rowsFor tailFor cut counts clean) :
    Serves (filterExecutor prev conds) inner (fun key =>
      (rowsFor key).filter conds)
      (fun key => .plain (tailFor key).thrown) (fun _ => false)
      (fun key => node ((rowsFor key).filter conds).length (counts key) 0)
        clean := by
  rcases hPrev with ⟨At, Got, hStream, hBegin, hClean⟩
  refine ⟨FilterAt At Got conds, FilterGot Got conds,
    Steps.toStream ⟨?_, ?_, ?_, ?_, ?_⟩ (fun _ _ => rfl), ?_, ?_⟩
  · rintro s n rs e T ⟨e', T', -, -, ⟨hCur, rfl, -⟩ | ⟨r, m, later, hCur, rfl, -⟩⟩
    · simp [filterExecutor, hCur]
    · simp [filterExecutor, hCur]
  · rintro s n r rs e T ⟨e', T', hE, rfl, ⟨-, hRs, -⟩ | ⟨r', m, later, hCur, hRs, hGot⟩⟩
    · exact absurd hRs (List.cons_ne_nil r rs)
    · rw [List.cons.injEq] at hRs
      rcases hRs with ⟨rfl, rfl⟩
      refine ⟨hCur, e', T', hE, ?_, r, m, later, hCur, rfl, hGot⟩
      simp [filterExecutor, hCur, Nat.add_assoc, Nat.add_comm 1]
  · rintro s n rs e T ⟨e', T', rfl, rfl, r, m, later, -, rfl, hGot⟩
    exact reaches_findNextValid (e := e') hStream.toSteps (hStream.nextTuple hGot)
  · rintro s n rs e T ⟨e', T', -, -, r, m, later, hCur, -⟩
    simp [filterExecutor, hCur]
  · rintro s n rs e T ⟨e', T', -, -, r, m, later, -, rfl, hGot⟩
    exact Nat.lt_of_le_of_lt (List.length_filter_le _ _) (hStream.room hGot)
  · intro key s hFree
    have hState : (filterExecutor prev conds).restart key s =
        prev.restart key s.prev >>= findNextValid prev conds s.rows :=
      restart_map (c := filterExecutor prev conds) (p := fun s' => { s with prev := s' }) s.prev
        (fun _ => rfl) (fun _ => rfl) key
    have hCounts : (filterExecutor prev conds).rows s +
        node ((rowsFor key).filter conds).length (counts key) 0 =
          node (s.rows + ((rowsFor key).filter conds).length)
            (prev.rows s.prev + counts key) 0 := node_add s.rows _ (prev.rows s.prev) _ 0 0
    rw [hState, hCounts]
    exact reaches_findNextValid (e := tailFor key) hStream.toSteps (hBegin key s.prev hFree)
  · rintro s n e T hC ⟨e', T', -, rfl, ⟨-, -, m, hAt⟩ | ⟨r, m, later, -, hRs, -⟩⟩
    · rw [← hClean _ _ _ _ hC hAt]
      rfl
    · exact absurd hRs (List.cons_ne_nil _ _).symm

def Mapped
    (P : prev.State → Nat → List R → Tail E → (List Bool → Nat) → Prop)
    (proj : R → R)
    (s : prev.State × Nat)
    (n : Nat)
    (rs : List R)
    (e : Tail E)
    (T : List Bool → Nat) :
    Prop :=
  ∃ later T', P s.1 n later e T' ∧ rs = later.map proj ∧ T = node (s.2 + later.length) T' 0

theorem serves_projectionExecutor (proj : R → R)
    (hPrev : Serves prev inner rowsFor tailFor cut counts clean) :
    Serves (projectionExecutor prev proj) inner (fun key =>
      (rowsFor key).map proj) tailFor cut
      (fun key => node (rowsFor key).length (counts key) 0) clean := by
  rcases hPrev with ⟨At, Got, hStream, hBegin, hClean⟩
  refine ⟨Mapped At proj, Mapped Got proj, ⟨⟨?_, ?_, ?_, ?_, ?_⟩, ?_⟩, ?_, ?_⟩
  · rintro s n rs e T ⟨later, T', hAt, rfl, -⟩
    exact (hStream.isEnd hAt).trans (by simp)
  · rintro s n r rs e T ⟨_ | ⟨r', later⟩, T', hAt, hRs, rfl⟩
    · exact absurd hRs (List.cons_ne_nil r rs)
    · rw [List.map_cons, List.cons.injEq] at hRs
      rcases hRs with ⟨rfl, rfl⟩
      rcases hStream.next hAt with ⟨hRow, hGot⟩
      have hNext : (projectionExecutor prev proj).next s =
          (((prev.next s.1).1, s.2 + 1), some (proj r')) := by
        simp [projectionExecutor, hStream.isEnd hAt, hRow]
      rw [hNext]
      exact ⟨rfl, later, T', hGot, rfl, by simp [Nat.add_assoc, Nat.add_comm 1]⟩
  · rintro s n rs e T ⟨later, T', hGot, rfl, rfl⟩
    exact (hStream.nextTuple hGot).map (by simp) (fun s' hAt => ⟨later, T', hAt, rfl, rfl⟩)
  · rintro s n rs e T ⟨later, T', hGot, rfl, -⟩
    exact (hStream.stops hGot).trans (by simp)
  · rintro s n rs e T ⟨later, T', hGot, rfl, -⟩
    rw [List.length_map]
    exact hStream.room hGot
  · rintro s n rs e T k ⟨later, T', hAt, rfl, rfl⟩ hCalm
    rcases hStream.batch k hAt hCalm with ⟨s', hRows, hAfter⟩
    refine ⟨(s', s.2 + (later.take k).length), ?_, later.drop k, T', ?_, List.map_drop.symm, ?_⟩
    · simp [projectionExecutor, hRows, Except.map]
    · rw [← List.map_take, List.length_map]
      exact hAfter
    · simp only [List.length_take, List.length_drop]
      congr 1
      omega
  · intro key s hFree
    have hState : (projectionExecutor prev proj).restart key s =
        prev.restart key s.1 >>= fun p => .ok (p, s.2) :=
      restart_map (c := projectionExecutor prev proj) (p := (·, s.2)) s.1
        (fun _ => rfl) (fun _ => rfl) key
    have hCounts := node_add s.2 (rowsFor key).length (prev.rows s.1) (counts key) 0 0
    rw [hState]
    exact (hBegin key s.1 hFree).map (by simp) (fun s' hAt => ⟨_, _, hAt, rfl, hCounts⟩)
  · rintro s n e T hC ⟨later, T', hAt, hRs, rfl⟩
    rw [List.map_eq_nil_iff.mp hRs.symm] at hAt ⊢
    rw [← hClean _ _ _ _ hC hAt]
    rfl

def Uncounted
    {c : Cursor E R}
    (P : c.State → Nat → List R → Tail E → (List Bool → Nat) → Prop)
    (s : c.State)
    (n : Nat)
    (rs : List R)
    (e : Tail E)
    (_ : List Bool → Nat) :
    Prop :=
  ∃ T, P s n rs e T

theorem serves_renameExecutor
    (hPrev : Serves prev inner rowsFor tailFor cut counts clean) :
    Serves (renameExecutor prev) inner rowsFor tailFor cut (fun _ =>
      0) False := by
  rcases hPrev with ⟨At, Got, hStream, hBegin, -⟩
  refine ⟨Uncounted At, Uncounted Got, ⟨⟨?_, ?_, ?_, ?_, ?_⟩, ?_⟩, ?_,
    fun _ _ _ _ hFalse => hFalse.elim⟩
  · rintro s n rs e - ⟨T, hAt⟩
    exact hStream.isEnd hAt
  · rintro s n r rs e - ⟨T, hAt⟩
    exact ⟨(hStream.next hAt).1, T, (hStream.next hAt).2⟩
  · rintro s n rs e - ⟨T, hGot⟩
    exact (hStream.nextTuple hGot).imp (fun s' hAt => ⟨T, hAt⟩)
  · rintro s n rs e - ⟨T, hGot⟩
    exact hStream.stops hGot
  · rintro s n rs e - ⟨T, hGot⟩
    exact hStream.room hGot
  · rintro s n rs e - k ⟨T, hAt⟩ hCalm
    rcases hStream.batch k hAt hCalm with ⟨s', hRows, hAfter⟩
    exact ⟨s', hRows, T, hAfter⟩
  · intro key s hFree
    have hState : (renameExecutor prev).restart key s = prev.restart key s := by
      cases key <;> rfl
    rw [hState]
    exact (hBegin key s hFree).imp (fun s' hAt => ⟨_, hAt⟩)

/- What a limit still hands out after a batch. -/
theorem drop_take_batch
    (later : List R)
    (limit n k : Nat) :
    (later.take (limit - n)).drop k = (later.drop (min k (limit - n))).take
      (limit - (n + (later.take (min k (limit - n))).length)) := by
  rw [List.drop_take, List.length_take]
  by_cases hLong : min k (limit - n) ≤ later.length
  · rw [Nat.min_eq_left hLong]
    rcases Nat.le_total k (limit - n) with hLe | hLe
    · rw [Nat.min_eq_left hLe, Nat.sub_add_eq]
    · rw [Nat.min_eq_right hLe, show limit - n - k = 0 by omega,
        show limit - (n + (limit - n)) = 0 by omega, List.take_zero, List.take_zero]
  · rw [List.drop_of_length_le (by omega), List.drop_of_length_le (by omega), List.take_nil,
      List.take_nil]

/- Once the limit is reached the cursor below is not moved on
  any more, and what it would throw is not thrown. -/
def limitTail (limit n : Nat) (e : Tail E) : Tail E :=
  ⟨if n < limit then e.thrown else none, e.ahead, fun hCalm => by simp [e.calm hCalm]⟩

def LimitAt
    (At : prev.State → Nat → List R → Tail E → (List Bool → Nat) → Prop)
    (limit : Nat)
    (s : prev.State × Nat)
    (n : Nat)
    (rs : List R)
    (e : Tail E)
    (_ : List Bool → Nat) :
    Prop :=
  s.2 = n ∧ (limit ≤ n ∧ rs = [] ∧ e.thrown = none ∨
    ∃ later e' T, At s.1 n later e' T ∧ rs = later.take (limit - n) ∧
      e = limitTail limit (n + later.length) e')

def LimitGot
    (Got : prev.State → Nat → List R → Tail E → (List Bool → Nat) → Prop)
    (limit : Nat)
    (s : prev.State × Nat)
    (n : Nat)
    (rs : List R)
    (e : Tail E)
    (_ : List Bool → Nat) :
    Prop :=
  s.2 = n ∧ n ≤ limit ∧ ∃ later e' T, Got s.1 n later e' T ∧ rs = later.take (limit - n) ∧
    e = limitTail limit (n + later.length) e'

/- A limit is at its end as soon as it handed out its last
  record. Its input is started, though, even if no record is
  wanted. -/
theorem serves_limitExecutor (limit : Nat)
    (hPrev : Serves prev false rowsFor tailFor cut counts clean) :
    Serves (limitExecutor prev limit) false (fun _ => (rowsFor none).take limit)
      (fun _ => if rowsFor none = [] then tailFor none
        else limitTail limit (rowsFor none).length (tailFor none))
      (fun n => decide (n = limit) || cut n) (fun _ => 0) False := by
  rcases hPrev with ⟨At, Got, hStream, hBegin, -⟩
  have hEnd : ∀ {s n rs e T}, LimitAt At limit s n rs e T →
      (limitExecutor prev limit).isEnd s = rs.isEmpty := by
    rintro s n rs e - ⟨rfl, ⟨hLimit, rfl, -⟩ | ⟨later, e', T, hAt, rfl, -⟩⟩
    · simp [limitExecutor, hLimit]
    · rw [Bool.eq_iff_iff]
      simp [limitExecutor, hStream.isEnd hAt, Nat.sub_eq_zero_iff_le]
  refine ⟨LimitAt At limit, LimitGot Got limit, ⟨⟨hEnd, ?_, ?_, ?_, ?_⟩, ?_⟩, ?_,
    fun _ _ _ _ hFalse => hFalse.elim⟩
  · intro s n r rs e _ hLim
    have hMore : (decide (limit ≤ s.2) || prev.isEnd s.1) = false := hEnd hLim
    rcases hLim with ⟨rfl, ⟨-, hRs, -⟩ | ⟨_ | ⟨r', later⟩, e', T, hAt, hRs, rfl⟩⟩
    · exact absurd hRs (List.cons_ne_nil r rs)
    · exact absurd hRs (by simp)
    · obtain ⟨m, hM⟩ : ∃ m, limit - s.2 = m + 1 := by
        refine ⟨limit - s.2 - 1, ?_⟩
        simp at hMore
        omega
      rw [hM, List.take_succ_cons, List.cons.injEq] at hRs
      rcases hRs with ⟨rfl, rfl⟩
      rcases hStream.next hAt with ⟨hRow, hGot⟩
      have hNext : (limitExecutor prev limit).next s = (((prev.next s.1).1, s.2 + 1), some r) := by
        simp [limitExecutor, hMore, hRow]
      rw [hNext]
      refine ⟨rfl, rfl, by omega, later, e', T, hGot, ?_, ?_⟩
      · rw [show limit - (s.2 + 1) = m by omega]
      · rw [List.length_cons, Nat.add_assoc, Nat.add_comm 1]
  · rintro s n rs e - ⟨rfl, hLimit, later, e', T, hGot, rfl, rfl⟩
    by_cases hLt : s.2 < limit
    · have hNext : (limitExecutor prev limit).nextTuple s = (prev.nextTuple s.1).map (·, s.2) :=
        if_pos hLt
      rw [hNext]
      rcases hStream.nextTuple hGot with ⟨err, hErr, rfl, hThrown⟩ | ⟨hSome, s', hOk, hAt⟩
      · exact Or.inl ⟨err, by rw [hErr]; rfl, List.take_nil, by simp [limitTail, hLt, hThrown]⟩
      · rw [hOk]
        refine Or.inr ⟨?_, (s', s.2), rfl, rfl, Or.inr ⟨later, e', T, hAt, rfl, rfl⟩⟩
        intro hNil
        have hLater : later = [] := by
          rcases List.take_eq_nil_iff.mp hNil with hZero | hLater
          · omega
          · exact hLater
        simp [limitTail, hSome hLater]
    · have hNext : (limitExecutor prev limit).nextTuple s = .ok s := if_neg hLt
      have hNone : (limitTail limit (s.2 + later.length) e').thrown = none := if_neg (by omega)
      rw [hNext]
      refine Or.inr ⟨fun _ => hNone, s, rfl, rfl, Or.inl ⟨by omega, ?_, hNone⟩⟩
      simp [show limit - s.2 = 0 by omega]
  · rintro s n rs e - ⟨rfl, hLimit, later, e', T, hGot, rfl, rfl⟩
    rw [Bool.eq_iff_iff]
    rcases Nat.lt_or_eq_of_le hLimit with hLt | hEq
    · cases later with
      | nil => simp [limitExecutor, limitTail, hStream.stops hGot, hLt, hLt.ne, Nat.not_le.mpr hLt]
      | cons r later =>
        simp [limitExecutor, hStream.stops hGot, Nat.sub_eq_zero_iff_le, Nat.not_le.mpr hLt]
    · simp [limitExecutor, limitTail, hEq]
  · rintro s n rs e - ⟨rfl, hLimit, later, e', T, hGot, rfl, -⟩
    exact Nat.lt_of_le_of_lt (List.length_take_le' _ _) (hStream.room hGot)
  · intro s n rs e _ k hLim hCalm
    by_cases hMore : (decide (limit ≤ s.2) || prev.isEnd s.1) = true
    · have hNil : rs = [] := List.isEmpty_iff.mp ((hEnd hLim).symm.trans hMore)
      have hBatch : (limitExecutor prev limit).nextBatch k s = .ok (s, []) := if_pos hMore
      rw [hBatch, hNil, List.take_nil, List.drop_nil]
      rw [hNil] at hLim
      exact ⟨s, rfl, hLim⟩
    · rcases hLim with ⟨rfl, ⟨hLimit, -⟩ | ⟨later, e', T, hAt, rfl, rfl⟩⟩
      · exact absurd (by simp [hLimit]) hMore
      · rcases hStream.batch (min k (limit - s.2)) hAt hCalm with ⟨s', hRows, hAfter⟩
        have hBatch : (limitExecutor prev limit).nextBatch k s =
            .ok ((s', s.2 + (later.take (min k (limit - s.2))).length),
              later.take (min k (limit - s.2))) := by
          simp [limitExecutor, hMore, hRows, Except.map]
        rw [hBatch, List.take_take]
        refine ⟨_, rfl, rfl, Or.inr ⟨_, e', T, hAfter, drop_take_batch _ _ _ _, ?_⟩⟩
        congr 1
        rw [List.length_take, List.length_drop]
        omega
  · intro key s hFree
    have hState : (limitExecutor prev limit).restart key s =
        (prev.restart none s.1).map (·, 0) := by
      cases key <;> rfl
    rw [hState]
    rcases hBegin none s.1 (fun _ => rfl) with ⟨err, hErr, hNil, hThrown⟩ | ⟨hSome, s', hOk, hAt⟩
    · exact Or.inl ⟨err, by rw [hErr]; rfl, by rw [hNil]; exact List.take_nil,
        by rw [if_pos hNil, hThrown]⟩
    · have hTail : (if rowsFor none = [] then tailFor none
          else limitTail limit (rowsFor none).length (tailFor none)) =
          limitTail limit (0 + (rowsFor none).length) (tailFor none) := by
        rw [Nat.zero_add]
        split
        · rename_i hNil
          simp [limitTail, ← hSome hNil]
        · rfl
      rw [hOk, hTail]
      refine Or.inr ⟨?_, (s', 0), rfl, rfl, Or.inr ⟨_, _, _, hAt, rfl, rfl⟩⟩
      intro hNil
      rcases List.take_eq_nil_iff.mp hNil with hZero | hRows
      · exact if_neg (by omega)
      · simp [limitTail, hSome hRows]

end Unary

------------
-- Executors That Read Their Input Up Front
------------

def Pass.Yields
    (p : Pass E R)
    (rs : List R)
    (thrown : Option E) :
    Prop :=
  rs.length ≤ p.bound ∧ ∀ s, (∃ e, thrown = some e ∧ p.run s = .error e) ∨
    thrown = none ∧ ∃ s', p.run s = .ok (s', rs)

theorem Pass.yields_empty : (Pass.empty : Pass E R).Yields [] none :=
  ⟨Nat.le_refl _, fun s => Or.inr ⟨rfl, s, rfl⟩⟩

theorem Pass.Yields.add
    {p : Pass E R}
    {rs : List R}
    {thrown : Option E}
    (hPass : p.Yields rs thrown)
    {c : Cursor E R}
    {rowsFor : Option R → List R}
    {tailFor : Option R → Tail E}
    {cut : Nat → Bool}
    {counts : Option R → List Bool → Nat}
    {clean : Prop}
    (write : R → R)
    (hServes : Serves c false rowsFor tailFor cut counts clean) :
    (p.add c write).Yields ((rowsFor none).map write ++ rs)
      ((tailFor none).thrown.or thrown) := by
  rcases hServes with ⟨At, Got, hStream, hBegin, -⟩
  have hShort := hStream.toSteps.short_of_reaches (hBegin none c.init (fun _ => rfl))
  constructor
  · have hRest := hPass.1
    simp only [Pass.add, List.length_append, List.length_map]
    omega
  · intro s
    have hRun : ∀ x, c.beginTuple s.1 = x → (p.add c write).run s = x >>= fun s₁ =>
        c.drain (c.bound + 1) s₁ >>= fun q => p.run s.2 >>= fun q' =>
          .ok ((q.1, q'.1), q.2.map write ++ q'.2) := by
      rintro x rfl
      rfl
    rcases hBegin none s.1 (fun _ => rfl) with ⟨err, hErr, -, hThrown⟩ | ⟨hSome, s₁, hOk, hAt⟩
    · exact Or.inl ⟨err, by rw [hThrown]; rfl, hRun _ hErr⟩
    · rcases hStream.drain_spec hAt hSome (Nat.le_succ_of_le hShort) with
        ⟨err, hThrown, hErr⟩ | ⟨s₂, hNone, hDrain, -⟩
      · refine Or.inl ⟨err, by rw [hThrown]; rfl, ?_⟩
        rw [hRun _ hOk]
        simp only [Bind.bind, Except.bind, hErr]
        rfl
      · rw [hRun _ hOk, hNone]
        rcases hPass.2 s.2 with ⟨err, hThrown, hErr⟩ | ⟨hNone', s₃, hRest⟩
        · refine Or.inl ⟨err, hThrown, ?_⟩
          simp only [Bind.bind, Except.bind, hDrain, hErr]
          rfl
        · refine Or.inr ⟨hNone', (s₂, s₃), ?_⟩
          simp only [Bind.bind, Except.bind, hDrain, hRest]
          rfl

/- The records that are handed out; if reading the input
  throws, the executor does not start. -/
def bufferedRows
    (result : List R → List R)
    (rs : List R)
    (thrown : Option E) :
    List R :=
  if thrown.isSome then [] else result rs

theorem serves_bufferedExecutor
    {p : Pass E R}
    {rs : List R}
    {thrown : Option E}
    (hPass : p.Yields rs thrown)
    (result : List R → List R)
    (bound : Nat)
    (hBound : (result rs).length ≤ bound) :
    Serves (bufferedExecutor p result bound) false (fun _ =>
      bufferedRows result rs thrown)
      (fun _ => .plain thrown) (fun _ => false) (fun _ => 0) False := by
  refine ⟨fun s _ rs e _ => s.2 = rs ∧ rs.length ≤ bound ∧ e = .plain none,
    fun s _ rs e _ => ∃ r, s.2 = r :: rs ∧ rs.length < bound ∧ e = .plain none,
    Steps.toStream ⟨?_, ?_, ?_, ?_, ?_⟩ (fun _ _ => rfl), ?_,
    fun _ _ _ _ hFalse => hFalse.elim⟩
  · rintro s n rs e T ⟨rfl, -⟩
    rfl
  · rintro s n r rs e T ⟨hTodo, hLen, hE⟩
    exact ⟨congrArg List.head? hTodo, r, hTodo, hLen, hE⟩
  · rintro s n rs e T ⟨r, hTodo, hLen, rfl⟩
    exact Or.inr ⟨fun _ => rfl, _, rfl, congrArg List.tail hTodo, hLen.le, rfl⟩
  · rintro s n rs e T ⟨r, hTodo, -⟩
    rw [Bool.and_false]
    exact congrArg List.isEmpty hTodo
  · rintro s n rs e T ⟨r, -, hLen, -⟩
    exact hLen
  · intro key s hFree
    have hState : (bufferedExecutor p result bound).restart key s =
        (p.run s.1).map (fun q => (q.1, result q.2)) := by
      cases key <;> rfl
    rw [hState]
    rcases hPass.2 s.1 with ⟨err, rfl, hErr⟩ | ⟨rfl, s', hOk⟩
    · exact Or.inl ⟨err, by rw [hErr]; rfl, rfl, rfl⟩
    · rw [hOk]
      exact Or.inr ⟨fun _ => rfl, _, rfl, rfl, hBound, rfl⟩

------------
-- Nested Loop Join
------------

section Join

variable {left right : Cursor E R} (conds : R → Bool) (glue : R → R → R)

/- The records that a left record is joined to. -/
def matchesOf (l : R) (rs : List R) : List R :=
  (rs.filter (fun r => conds (glue l r))).map (glue l)

/- The output for the right records of the left record at
  hand, with what is thrown behind them, and then that for the
  left records to come. -/
def joinMore
    (l : R)
    (now rest : List R × Option E) :
    List R × Option E :=
  match now.2 with
  | some e => (matchesOf conds glue l now.1, some e)
  | none => (matchesOf conds glue l now.1 ++ rest.1, rest.2)

/- The output for the left records still to be fetched. The
  last one is lost when the left side is at its end as soon as
  that record was fetched; the right side is started for it,
  though. -/
def joinRest
    (cut : Nat → Bool)
    (thrown : Option E)
    (rightFor : R → List R × Option E) :
    Nat → List R → List R × Option E
| _, [] => ([], thrown)
| n, l :: ls =>
  if ls.isEmpty && thrown.isNone && cut (n + 1) then
    ([], if (rightFor l).1.isEmpty then (rightFor l).2 else none)
  else
    joinMore conds glue l (rightFor l) (joinRest cut thrown rightFor (n + 1) ls)

section Cons

variable {cut : Nat → Bool} {thrown : Option E} {rightFor : R → List R × Option E} {l : R}

/- The right side throws when it is started. -/
theorem joinRest_of_thrown
    {e : E}
    (hRight : rightFor l = ([], some e))
    (n : Nat)
    (ls : List R) :
    joinRest conds glue cut thrown rightFor n (l :: ls) = ([], some e) := by
  simp [joinRest, joinMore, hRight, matchesOf]

theorem joinRest_of_started
    (hSome : (rightFor l).1 = [] → (rightFor l).2 = none)
    (n : Nat)
    (ls : List R) :
    joinRest conds glue cut thrown rightFor n (l :: ls) =
      if ls.isEmpty && thrown.isNone && cut (n + 1) then ([], none)
      else joinMore conds glue l (rightFor l)
        (joinRest conds glue cut thrown rightFor (n + 1) ls) := by
  rw [joinRest]
  cases hRows : (rightFor l).1 with
  | nil => simp [hSome hRows]
  | cons r rs => simp

end Cons

/- When nothing is thrown, only the last left record may be
  lost. -/
theorem joinRest_eq
    (cut : Nat → Bool)
    (rightFor : R → List R × Option E)
    (n : Nat)
    (ls : List R)
    (hCalm : ∀ l ∈ ls, (rightFor l).2 = none) :
    joinRest conds glue cut none rightFor n ls =
      ((if cut (n + ls.length) then ls.dropLast else ls).flatMap
        (fun l => matchesOf conds glue l (rightFor l).1), none) := by
  induction ls generalizing n with
  | nil => simp [joinRest]
  | cons l ls ih =>
    rw [List.forall_mem_cons] at hCalm
    have hLen : n + 1 + ls.length = n + (l :: ls).length := by simp; omega
    rw [joinRest, joinMore, ih (n + 1) hCalm.2, hCalm.1, hLen]
    cases ls with
    | nil => by_cases hCut : cut (n + 1) = true <;> simp [hCut]
    | cons l' ls =>
      by_cases hCut : cut (n + (l :: l' :: ls).length) = true
      · rw [if_pos hCut, if_pos hCut]
        rfl
      · rw [if_neg hCut, if_neg hCut]
        rfl

theorem length_matchesOf_le
    (l : R)
    (rs : List R) :
    (matchesOf conds glue l rs).length ≤ rs.length := by
  rw [matchesOf, List.length_map]
  exact List.length_filter_le _ _

theorem length_joinMore_le
    (l : R)
    (now rest : List R × Option E) :
    (joinMore conds glue l now rest).1.length ≤
      now.1.length + rest.1.length := by
  have hNow := length_matchesOf_le conds glue l now.1
  unfold joinMore
  split
  · exact Nat.le_add_right_of_le hNow
  · rw [List.length_append]
    exact Nat.add_le_add_right hNow _

theorem length_joinRest_le
    (cut : Nat → Bool)
    (thrown : Option E)
    {rightFor : R → List R × Option E}
    {b : Nat}
    (hRight : ∀ l, (rightFor l).1.length ≤ b)
    (n : Nat)
    (ls : List R) :
    (joinRest conds glue cut thrown rightFor n ls).1.length ≤
      b * ls.length := by
  induction ls generalizing n with
  | nil => exact Nat.zero_le _
  | cons l ls ih =>
    rw [joinRest]
    split
    · exact Nat.zero_le _
    · have hMore := length_joinMore_le conds glue l (rightFor l)
        (joinRest conds glue cut thrown rightFor (n + 1) ls)
      have hFirst := hRight l
      have hRest := ih (n + 1)
      rw [List.length_cons, Nat.mul_succ]
      omega

variable (cut : Nat → Bool) (rowsFor : Option R → List R) (tailFor : Option R → Tail E)
variable (counts : Option R → List Bool → Nat) (clean : Prop)

/- What the right side hands out for a left record. -/
def rightOf (l : R) : List R × Option E :=
  (rowsFor (some l), (tailFor (some l)).thrown)

/- A pair was fetched: what is left of the right side for the
  left record at hand, and then the left records to come. -/
def JoinGot
    (GotL : left.State → Nat → List R → Tail E → (List Bool → Nat) → Prop)
    (GotR : right.State → Nat → List R → Tail E → (List Bool → Nat) → Prop)
    (s : JoinState left.State right.State R)
    (_ : Nat)
    (rs : List R)
    (e : Tail E)
    (T : List Bool → Nat) :
    Prop :=
  ∃ l n ls eL TL m later eR TR thrown, e = .plain thrown ∧ s.isend = false ∧
    s.leftRec = some l ∧ GotL s.left n ls eL TL ∧ left.isEnd s.left = false ∧
    GotR s.right m later eR TR ∧
    (rs, thrown) = joinMore conds glue l (later, eR.thrown)
      (joinRest conds glue cut eL.thrown (rightOf rowsFor tailFor) n ls) ∧
    (clean → T = node (s.rows + rs.length) TL (TR + (ls.map (fun l' => counts (some l'))).sum))

def JoinAt
    (GotL : left.State → Nat → List R → Tail E → (List Bool → Nat) → Prop)
    (GotR : right.State → Nat → List R → Tail E → (List Bool → Nat) → Prop)
    (s : JoinState left.State right.State R)
    (n : Nat)
    (rs : List R)
    (e : Tail E)
    (T : List Bool → Nat) :
    Prop :=
  s.isend = true ∧ rs = [] ∧ e = .plain none ∧
      (clean → T = (nestedLoopJoinExecutor left right conds glue).rows s) ∨
    ∃ l r rs', s.isend = false ∧ s.leftRec = some l ∧ s.rightRec = some r ∧
      rs = glue l r :: rs' ∧
      JoinGot conds glue cut rowsFor tailFor counts clean GotL GotR
        { s with rows := s.rows + 1 } n rs' e T

variable {conds glue cut rowsFor tailFor counts clean} {cleanL cleanR : Prop} {cutR : Nat → Bool}
variable {AtL GotL : left.State → Nat → List R → Tail E → (List Bool → Nat) → Prop}
variable {AtR GotR : right.State → Nat → List R → Tail E → (List Bool → Nat) → Prop}

theorem advanceToNextMatch_of_isEnd
    {fuel : Nat}
    {s : JoinState left.State right.State R}
    (hEnd : left.isEnd s.left = true) :
    advanceToNextMatch left right conds glue fuel s =
      .ok { s with rightRec := none, isend := true } := by
  cases fuel with
  | zero => rfl
  | succ fuel => rw [advanceToNextMatch, if_pos hEnd]

/- One round of the loop with a left record at hand. -/
theorem advanceToNextMatch_succ
    {fuel : Nat}
    {s : JoinState left.State right.State R}
    {l : R}
    (hEnd : left.isEnd s.left = false)
    (hLeft : s.leftRec = some l) :
    advanceToNextMatch left right conds glue (fuel + 1) s =
      right.seek true (fun r => conds (glue l r)) (right.bound + 1)
          s.right >>= fun p =>
        match p.2 with
        | some r =>
          .ok { s with right := p.1, rightRec := some r, isend := false }
        | none => left.nextTuple s.left >>= fun sL =>
          if left.isEnd sL then
            advanceToNextMatch left right conds glue fuel
              { s with left := sL, right := p.1 }
          else
            fetchLeft left right { s with left := sL, right := p.1 } >>=
              advanceToNextMatch left right conds glue fuel := by
  have hOk : (fun r => s.leftRec.any (fun l => conds (glue l r))) = fun r => conds (glue l r) := by
    rw [hLeft]
    rfl
  rw [advanceToNextMatch, if_neg (by simp [hEnd]), hOk]
  rfl

section Advance

variable (hL : Steps left AtL GotL cut) (hR : Steps right AtR GotR cutR)
variable (hBegin : ∀ l s, Reaches (right.restart (some l) s) (rowsFor (some l))
  (tailFor (some l)).thrown (fun s' => AtR s' 0 (rowsFor (some l)) (tailFor (some l))
    (right.rows s + counts (some l))))
variable (hEndL : ∀ s n e T, clean → AtL s n [] e T → left.rows s = T)
variable (hEndR : ∀ s n e T, clean → AtR s n [] e T → right.rows s = T)
variable (hCut : clean → ∀ n, cut n = false)
include hL hR hBegin hEndL hEndR hCut

theorem reaches_advanceToNextMatch
    {fuel n m k : Nat}
    {ls rs : List R}
    {l : R}
    {eL eR : Tail E}
    {TL TR T : List Bool → Nat}
    {s : JoinState left.State right.State R}
    (hFuel : ls.length < fuel)
    (hLeft : s.leftRec = some l)
    (hGot : GotL s.left n ls eL TL)
    (hAt : AtR s.right m rs eR TR)
    (hSome : rs = [] → eR.thrown = none)
    {q : List R × Option E}
    (hOut : q = if ls.isEmpty && eL.thrown.isNone && cut n then ([], none)
      else joinMore conds glue l (rs, eR.thrown)
        (joinRest conds glue cut eL.thrown (rightOf rowsFor tailFor) n ls))
    (hT : clean → T = node (s.rows + q.1.length) TL
      (TR + (ls.map (fun l' => counts (some l'))).sum)) :
    Reaches (advanceToNextMatch left right conds glue fuel s) q.1 q.2
      (fun s' => JoinAt conds glue cut rowsFor tailFor counts clean GotL
        GotR s' k q.1
        (.plain q.2) T) := by
  induction fuel generalizing n m ls rs l eL eR TL TR T s q with
  | zero => omega
  | succ fuel ih =>
    have hStops := hL.stops hGot
    cases hEnd : left.isEnd s.left with
    | true =>
      rw [hEnd] at hStops
      rw [← hStops, if_pos rfl] at hOut
      subst hOut
      rw [advanceToNextMatch_of_isEnd hEnd]
      refine Or.inr ⟨fun _ => rfl, _, rfl, Or.inl ⟨rfl, rfl, rfl, ?_⟩⟩
      intro hC
      rw [hCut hC n, Bool.and_false] at hStops
      cases hStops
    | false =>
      rw [hEnd] at hStops
      rw [← hStops, if_neg Bool.false_ne_true] at hOut
      rw [advanceToNextMatch_succ hEnd hLeft]
      rcases hR.seek_spec hAt hSome (Nat.lt_add_one_of_le (hR.short hAt)) with
        ⟨err, hErr, hFilter, hThrown⟩ | ⟨hNone, ⟨sR, r?⟩, hSeek, hFound⟩
      · -- the right side throws before there is a match
        rw [hErr]
        rw [joinMore, hThrown] at hOut
        subst hOut
        exact Or.inl ⟨err, rfl, by simp [matchesOf, hFilter], rfl⟩
      rw [hSeek]
      rcases hFound with ⟨hR?, hFilter, m', hLast⟩ | ⟨r, m', later, hR?, hFilter, hGotR⟩
      · have hR?' : r? = none := hR?
        subst hR?'
        replace hOut : q = joinRest conds glue cut eL.thrown (rightOf rowsFor tailFor) n ls := by
          rw [hOut, hNone hFilter]
          simp [joinMore, matchesOf, hFilter]
        change Reaches (left.nextTuple s.left >>= _) _ _ _
        rcases hL.nextTuple hGot with ⟨err, hErr, rfl, hThrown⟩ | ⟨hSomeL, sL, hMove, hAtL⟩
        · -- the left side throws
          rw [hErr]
          subst hOut
          exact Or.inl ⟨err, rfl, rfl, hThrown⟩
        rw [hMove]
        cases ls with
        | nil =>
          have hDone : left.isEnd sL = true := hL.isEnd hAtL
          change Reaches (if left.isEnd sL = true then _ else _) _ _ _
          rw [if_pos hDone, advanceToNextMatch_of_isEnd hDone]
          rw [joinRest, hSomeL rfl] at hOut
          subst hOut
          refine Or.inr ⟨fun _ => rfl, _, rfl, Or.inl ⟨rfl, rfl, rfl, ?_⟩⟩
          intro hC
          rw [hT hC, ← hEndL _ _ _ _ hC hAtL, ← hEndR _ _ _ _ hC hLast]
          rfl
        | cons l' ls =>
          rcases hL.next hAtL with ⟨hRow, hGot'⟩
          have hMore : left.isEnd sL = false := hL.isEnd hAtL
          change Reaches (if left.isEnd sL = true then _ else _) _ _ _
          rw [if_neg (by simp [hMore])]
          simp only [fetchLeft, hRow]
          rcases hBegin l' sR with ⟨err, hErr, hNil, hThrown⟩ | ⟨hSomeR, sR', hStart, hAtR⟩
          · -- the key of the next left record cannot be bound
            rw [hErr]
            rw [joinRest_of_thrown conds glue (Prod.ext hNil hThrown)] at hOut
            subst hOut
            exact Or.inl ⟨err, rfl, rfl, rfl⟩
          · rw [hStart]
            refine ih (s := { s with left := (left.next sL).1, leftRec := some l', right := sR' })
              (by simpa using hFuel) rfl hGot' hAtR hSomeR ?_ ?_
            · rw [hOut, joinRest_of_started conds glue hSomeR]
              rfl
            · intro hC
              rw [hT hC, hEndR _ _ _ _ hC hLast, List.map_cons, List.sum_cons, add_assoc]
      · have hR?' : r? = some r := hR?
        subst hR?'
        have hPairs : q = (glue l r :: (joinMore conds glue l (later, eR.thrown)
            (joinRest conds glue cut eL.thrown (rightOf rowsFor tailFor) n ls)).1,
            (joinMore conds glue l (later, eR.thrown)
              (joinRest conds glue cut eL.thrown (rightOf rowsFor tailFor) n ls)).2) := by
          rw [hOut]
          unfold joinMore
          cases eR.thrown <;> simp [matchesOf, hFilter]
        rw [hPairs] at hT ⊢
        refine Or.inr ⟨fun hNil => absurd hNil (List.cons_ne_nil _ _), _, rfl,
          Or.inr ⟨l, r, _, rfl, hLeft, rfl, rfl, l, n, ls, eL, TL, m', later, eR, TR, _, rfl, rfl,
            hLeft, hGot, hEnd, hGotR, rfl, ?_⟩⟩
        intro hC
        rw [hT hC]
        simp [Nat.add_assoc, Nat.add_comm 1]

end Advance

theorem serves_nestedLoopJoinExecutor
    {rowsL : Option R → List R}
    {tailL : Option R → Tail E}
    {inner : Bool}
    {countsL : Option R → List Bool → Nat}
    (hLeft : Serves left false rowsL tailL cut countsL cleanL)
    (hRight : Serves right inner rowsFor tailFor cutR counts cleanR)
    (hCut : cleanL → ∀ n, cut n = false) :
    let out := joinRest conds glue cut (tailL none).thrown
      (rightOf rowsFor tailFor) 0 (rowsL none)
    Serves (nestedLoopJoinExecutor left right conds glue) false (fun _ => out.1)
      (fun _ => .plain out.2) (fun _ => false)
      (fun _ => node out.1.length (countsL none)
        ((rowsL none).map (fun l => counts (some l))).sum)
      (cleanL ∧ cleanR) := by
  intro out
  rcases hLeft with ⟨AtL, GotL, hL, hBeginL, hEndL⟩
  rcases hRight with ⟨AtR, GotR, hR, hBeginR, hEndR⟩
  have hBegin := fun l s => hBeginR (some l) s (by simp)
  have hEndL' := fun s n e T (hC : cleanL ∧ cleanR) => hEndL s n e T hC.1
  have hEndR' := fun s n e T (hC : cleanL ∧ cleanR) => hEndR s n e T hC.2
  have hCut' := fun hC : cleanL ∧ cleanR => hCut hC.1
  refine ⟨JoinAt conds glue cut rowsFor tailFor counts (cleanL ∧ cleanR) GotL GotR,
    JoinGot conds glue cut rowsFor tailFor counts (cleanL ∧ cleanR) GotL GotR,
    Steps.toStream ⟨?_, ?_, ?_, ?_, ?_⟩ (fun _ _ => rfl), ?_, ?_⟩
  · rintro s n rs e T (⟨hEnd, rfl, -⟩ | ⟨l, r, rs', hEnd, -, -, rfl, -⟩)
    · exact hEnd
    · exact hEnd
  · rintro s n r rs e T (⟨-, hRs, -⟩ | ⟨l, r', rs', hEnd, hLeft, hRight, hRs, hGot⟩)
    · exact absurd hRs (List.cons_ne_nil r rs)
    · rw [List.cons.injEq] at hRs
      rcases hRs with ⟨rfl, rfl⟩
      have hNext : (nestedLoopJoinExecutor left right conds glue).next s =
          ({ s with rows := s.rows + 1 }, some (glue l r')) := by
        simp only [nestedLoopJoinExecutor, hEnd, hLeft, hRight]
      rw [hNext]
      exact ⟨rfl, hGot⟩
  · rintro s n rs e T ⟨l, n', ls, eL, TL, m, later, eR, TR, thrown, rfl, hEnd, hLeft, hGotL, hMore,
      hGotR, hRs, hT⟩
    have hNext : (nestedLoopJoinExecutor left right conds glue).nextTuple s =
        right.nextTuple s.right >>= fun sR =>
          advanceToNextMatch left right conds glue (left.bound + 1) { s with right := sR } :=
      if_neg (by simp [hEnd])
    rw [hNext]
    rcases hR.nextTuple hGotR with ⟨err, hErr, rfl, hThrown⟩ | ⟨hSomeR, sR, hMove, hAtR⟩
    · rw [hErr]
      rw [joinMore, hThrown] at hRs
      cases hRs
      exact Or.inl ⟨err, rfl, rfl, rfl⟩
    · rw [hMove]
      refine reaches_advanceToNextMatch (s := { s with right := sR }) (q := (rs, thrown))
        hL.toSteps hR.toSteps hBegin hEndL' hEndR' hCut' (Nat.lt_succ_of_lt (hL.room hGotL)) hLeft
        hGotL hAtR hSomeR ?_ hT
      rw [← hL.stops hGotL, hMore, if_neg Bool.false_ne_true]
      exact hRs
  · rintro s n rs e T ⟨l, n', ls, eL, TL, m, later, eR, TR, thrown, -, hEnd, -⟩
    rw [Bool.and_false]
    exact hEnd
  · rintro s n rs e T ⟨l, n', ls, eL, TL, m, later, eR, TR, thrown, -, -, -, hGotL, -, hGotR, hRs,
      -⟩
    have hOpen := hR.room hGotR
    have hShort : ∀ l', (rightOf rowsFor tailFor l').1.length ≤ right.bound :=
      fun l' => hR.toSteps.short_of_reaches (hBegin l' right.init)
    have hRest := length_joinRest_le conds glue cut eL.thrown hShort n' ls
    have hMore := length_joinMore_le conds glue l (later, eR.thrown)
      (joinRest conds glue cut eL.thrown (rightOf rowsFor tailFor) n' ls)
    rw [← hRs] at hMore
    have hTotal := Nat.mul_le_mul_left right.bound (hL.room hGotL)
    rw [Nat.mul_succ] at hTotal
    simp only [nestedLoopJoinExecutor, Nat.mul_comm left.bound]
    simp only at hMore
    omega
  · intro key s hFree
    have hState : (nestedLoopJoinExecutor left right conds glue).restart key s =
        left.beginTuple s.left >>= fun sL =>
          if left.isEnd sL then
            .ok { s with left := sL, rightRec := none, isend := true }
          else
            fetchLeft left right { s with left := sL } >>=
              advanceToNextMatch left right conds glue (left.bound + 1) := by
      cases key <;> rfl
    rw [hState]
    have hStartL := hBeginL none s.left (fun _ => rfl)
    rw [restart] at hStartL
    rcases hStartL with ⟨err, hErr, hNil, hThrown⟩ | ⟨hSomeL, sL, hStart, hAtL⟩
    · rw [hErr]
      have hOut : out = ([], some err) := by simp [out, hNil, joinRest, hThrown]
      rw [hOut]
      exact Or.inl ⟨err, rfl, rfl, rfl⟩
    rw [hStart]
    change Reaches (if left.isEnd sL = true then _ else _) _ _ _
    have hCounts := node_add s.rows out.1.length (left.rows s.left) (countsL none)
      (right.rows s.right) ((rowsL none).map (fun l => counts (some l))).sum
    cases hRows : rowsL none with
    | nil =>
      rw [hRows] at hAtL hCounts
      have hOut : out = ([], none) := by simp [out, hRows, joinRest, hSomeL hRows]
      have hDone : left.isEnd sL = true := hL.isEnd hAtL
      simp only [hDone, hOut]
      refine Or.inr ⟨fun _ => rfl, _, rfl, Or.inl ⟨rfl, rfl, rfl, ?_⟩⟩
      intro hC
      rw [← hEndL _ _ _ _ hC.1 hAtL, hOut] at hCounts
      exact hCounts
    | cons l ls =>
      rw [hRows] at hAtL hCounts
      rcases hL.next hAtL with ⟨hRow, hGotL⟩
      have hMore : left.isEnd sL = false := hL.isEnd hAtL
      simp only [hMore, Bool.false_eq_true, fetchLeft, hRow]
      rcases hBegin l s.right with ⟨err, hErr, hNil, hThrown⟩ | ⟨hSomeR, sR, hStartR, hAtR⟩
      · have hRight : rightOf rowsFor tailFor l = ([], some err) := Prod.ext hNil hThrown
        have hOut : out = ([], some err) := by
          simp only [out, hRows, joinRest_of_thrown conds glue hRight]
        rw [hErr, hOut]
        exact Or.inl ⟨err, rfl, rfl, rfl⟩
      · rw [hStartR]
        refine reaches_advanceToNextMatch
          (s := { s with left := (left.next sL).1, leftRec := some l, right := sR }) (q := out)
          hL.toSteps hR.toSteps hBegin hEndL' hEndR' hCut' (Nat.lt_succ_of_lt (hL.room hGotL)) rfl
          hGotL hAtR hSomeR ?_ ?_
        · simp only [out, hRows]
          rw [joinRest_of_started conds glue hSomeR]
          rfl
        · intro hC
          rw [add_assoc]
          exact hCounts
  · rintro s n e T hC (⟨-, -, -, hT⟩ | ⟨l, r, rs', -, -, -, hRs, -⟩)
    · exact (hT hC).symm
    · exact absurd hRs (List.cons_ne_nil _ _).symm

end Join

end Rmdb
