import Rmdb.Mvcc.Keys

/-
  This file shows what the other steps do to the keys of a
  table whose writes all have versions.  An abort takes the
  rows of its transaction back and leaves the indexes exact; a
  commit and garbage collection do not touch any newest
  version.

  Key theorems include:
    * `Engine.retract_abortWrites`
    * `Engine.KeysOk.abort`
    * `Engine.KeysOk.commits`
    * `Engine.KeysOk.collect`
-/

namespace Rmdb

open Function List KeyMap WriteRecord

namespace Engine

section Frames

variable {e e' : Engine} {t : TxnId} {x : Loc} {tab : TabName}

/- A step of a row operation that writes nothing. -/
theorem KeysOk.quiet
    (hKeys : e.KeysOk tab)
    (hQuiet : Quiet t x e e') :
    e'.KeysOk tab := by
  have hActs := hQuiet.acts
  have hRecord := hQuiet.edits.record_same
  have hTable : ∀ i, (e'.db tab).cols i = (e.db tab).cols i ∧
      (e'.db tab).entry i = (e.db tab).entry i := by
    intro i
    by_cases hTab : tab = x.tab
    · rw [hTab]
      exact ⟨Table.cols_of_indexes hQuiet.indexes i, Table.entry_of_indexes hQuiet.indexes i⟩
    · rw [hQuiet.edits.others tab hTab]
      exact ⟨rfl, rfl⟩
  refine hKeys.congr (fun rid => by rw [hRecord]) (fun rid => by rw [hQuiet.versions]) ?_
    (fun i => (hTable i).1) (fun i => (hTable i).2) ?_
  · by_cases hTab : tab = x.tab
    · rw [hTab]
      exact hQuiet.edits.slots
    · rw [hQuiet.edits.others tab hTab]
  · intro u hU
    refine Or.inr ⟨(hActs.running_iff u).mp hU, ?_⟩
    unfold rowsOf
    by_cases hT : u = t
    · rw [hT, hQuiet.writeSet]
    · rw [hActs.txn hT]

/- A change of a row of another table. -/
theorem KeysOk.change_other
    {d : DataRecord}
    {v : Option RmRecord}
    (hKeys : e.KeysOk tab)
    (hTab : tab ≠ d.tab)
    (hActs : Acts t d.loc e e')
    (hEdits : e.db.Edits e'.db d.loc v) :
    e'.KeysOk tab := by
  have hSame : e'.db tab = e.db tab := hEdits.others tab hTab
  have hLoc : ∀ rid, (⟨tab, rid⟩ : Loc) ≠ d.loc := fun rid hEq => hTab (congrArg Loc.tab hEq)
  refine hKeys.congr (fun rid => hActs.record _ (hLoc rid))
    (fun rid => hActs.versions _ (hLoc rid)) (by rw [hSame])
    (fun i => by rw [hSame]) (fun i => by rw [hSame]) ?_
  intro u hU
  refine Or.inr ⟨(hActs.running_iff u).mp hU, ?_⟩
  unfold rowsOf
  by_cases hT : u = t
  · subst hT
    rcases hActs.writeSet with hSet | ⟨w, hW, hSet⟩
    · rw [hSet]
    · rw [hSet, filter_cons_of_neg]
      rw [hW]
      simp only [decide_eq_true_eq]
      exact fun hEq => hTab hEq.symm
  · rw [hActs.txn hT]

theorem KeysOk.begins (hKeys : e.KeysOk tab)
    (level : IsolationLevel) : (e.begin level).KeysOk tab := by
  have hSame : (e.begin level).db = e.db ∧ (e.begin level).mvccVersions = e.mvccVersions := by
    unfold Engine.begin
    split
    · exact ⟨rfl, rfl⟩
    · exact ⟨rfl, rfl⟩
  refine hKeys.congr (fun rid => by rw [hSame.1]) (fun rid => by rw [hSame.2]) (by rw [hSame.1])
    (fun i => by rw [hSame.1]) (fun i => by rw [hSame.1]) ?_
  intro u hU
  by_cases hNew : u = e.nextTxnId
  · refine Or.inl ?_
    subst hNew
    have hWrites : ((e.begin level).txn e.nextTxnId).writeSet = [] := by
      unfold Engine.begin
      split
      · simp [setTxn, MvccTxn.unused]
      · simp [setTxn, MvccTxn.unused]
    unfold rowsOf
    rw [hWrites]
    rfl
  · have hTxn : (e.begin level).txn u = e.txn u := by
      unfold Engine.begin
      split
      · exact update_of_ne hNew _ _
      · exact update_of_ne hNew _ _
    refine Or.inr ⟨?_, ?_⟩
    · unfold Running Engine.state at hU ⊢
      rw [hTxn] at hU
      exact hU
    · unfold rowsOf
      rw [hTxn]

end Frames

section Ends

variable {base : Loc → Option RmRecord} {floor : Int} {h : Hist}
variable {rejected : Option TxnId}
variable {e e' : Engine} {t u : TxnId} {tab : TabName}

------------
-- Commit And Garbage Collection
------------

theorem rowsOf_of_leaves
    (tab : TabName)
    (hEnd : Leaves t e e')
    (hRunning : e'.Running u) :
    e.Running u ∧ e'.rowsOf u tab = e.rowsOf u tab := by
  have hU := hEnd.ne_of_running hRunning
  refine ⟨(hEnd.running_iff hU).mp hRunning, ?_⟩
  unfold rowsOf
  rw [hEnd.others u hU]

/- A commit leaves the newest versions where they are. -/
theorem newest_commits
    (hInv : Consistent base floor none e h)
    (hCommits : Commits t e e')
    (x : Loc) :
    e'.newest x = e.newest x ∧ e'.committedHead x =
        if (e.mvccVersions x).any (fun entry => entry.writerTxn = some t) then
          e.newest x
        else
          e.committedHead x := by
  rcases hInv.versions_commit hCommits with ⟨hMine, hOther⟩
  have hRecord : e'.db.record x = e.db.record x := by rw [hCommits.db]
  by_cases hT : e.Owns t x
  · rcases hT with ⟨entry, hEntry, hWriter⟩
    have hNew := (hMine x entry hEntry hWriter).1
    have hNewest : e'.newest x = e.newest x := by
      unfold newest
      rw [hNew, hEntry, hRecord]
      rfl
    refine ⟨hNewest, ?_⟩
    rw [hEntry, Option.any_some, if_pos (by simp [hWriter]), ← hNewest]
    simp [committedHead, hNew, MvccEntry.settle]
  · have hSame := committedHead_congr hRecord (hOther x hT)
    refine ⟨hSame.1, ?_⟩
    rw [hSame.2, if_neg]
    intro hAny
    rcases Option.any_eq_true _ _ |>.mp hAny with ⟨entry, hEntry, hWriter⟩
    exact hT ⟨entry, hEntry, by simpa using hWriter⟩

/- The rows that a transaction owns are those it has written. -/
theorem mem_rowsOf_of_owns
    (hInv : Consistent base floor rejected e h)
    {rid : Rid}
    (hOwns : e.Owns t ⟨tab, rid⟩) :
    e.Running t ∧ rid ∈ e.rowsOf t tab := by
  have hOwner := (hInv.rows ⟨tab, rid⟩).owner t hOwns
  exact ⟨hOwner.1, mem_rowsOf.mpr hOwner.2.2⟩

/- The newest key of one row and the key that another row gets
  back can only be the same if one transaction has written
  both. -/
theorem KeysOk.eq_of_keys
    (hKeys : e.KeysOk tab)
    (hInv : Consistent base floor rejected e h)
    {i : Nat}
    {r q : Rid}
    {k : IndexKey}
    (hNow : e.nowKey tab i r = some k)
    (hWas : e.wasKey tab i q = some k) :
    q = r ∨ ∃ u, e.Owns u ⟨tab, q⟩ ∧ e.Owns u ⟨tab, r⟩ := by
  by_cases hQR : r = q
  · exact Or.inl hQR.symm
  · by_cases hOwner : ∃ u, e.Owns u ⟨tab, q⟩
    · rcases hOwner with ⟨u, hOwns⟩
      rcases mem_rowsOf_of_owns hInv hOwns with ⟨hRunning, hMem⟩
      have hFirst := (hKeys.rows u i hRunning).first q r k ⟨hMem, by simp⟩ hQR (Or.inl hWas) hNow
      exact Or.inr ⟨u, hOwns, hKeys.owned u r hRunning hFirst.1.mem⟩
    · have hFree : ∀ u, ¬ e.Owns u ⟨tab, q⟩ := fun u hU => hOwner ⟨u, hU⟩
      unfold wasKey at hWas
      rw [committedHead_of_free hFree] at hWas
      exact Or.inl ((hKeys.exact i).eq_of_holder hNow hWas)

theorem KeysOk.commits
    (hKeys : e.KeysOk tab)
    (hInv : Consistent base floor none e h)
    (hCommits : Commits t e e') :
    e'.KeysOk tab := by
  have hLeaves := Consistent.leaves_of_commits hCommits
  rcases hInv.versions_commit hCommits with ⟨hMine, hOther⟩
  have hNow : ∀ i, e'.nowKey tab i = e.nowKey tab i := by
    intro i
    funext rid
    unfold nowKey
    rw [hCommits.db, (newest_commits hInv hCommits _).1]
  have hWasT : ∀ i rid, e.Owns t ⟨tab, rid⟩ → e'.wasKey tab i rid = e.nowKey tab i rid := by
    rintro i rid ⟨entry, hEntry, hWriter⟩
    unfold wasKey nowKey
    rw [hCommits.db, (newest_commits hInv hCommits _).2, hEntry,
      Option.any_some, if_pos (by simp [hWriter])]
  have hWasU : ∀ i rid, ¬ e.Owns t ⟨tab, rid⟩ → e'.wasKey tab i rid = e.wasKey tab i rid := by
    intro i rid hNot
    unfold wasKey
    rw [hCommits.db, (committedHead_congr (by rw [hCommits.db]) (hOther _ hNot)).2]
  have hLost : ∀ i, e'.lostKey tab i = e.lostKey tab i := by
    intro i
    funext rid
    unfold lostKey
    rw [hCommits.db]
  -- rows of other transactions
  have hForeign : ∀ {u rid}, e'.Running u → rid ∈ e'.rowsOf u tab →
        e.Running u ∧ rid ∈ e.rowsOf u tab ∧ e.Owns u ⟨tab, rid⟩ ∧ ¬ e.Owns t ⟨tab, rid⟩ := by
    intro u rid hU hMem
    rcases rowsOf_of_leaves tab hLeaves hU with ⟨hRunning, hSame⟩
    rw [hSame] at hMem
    have hOwns := hKeys.owned u rid hRunning hMem
    refine ⟨hRunning, hMem, hOwns, ?_⟩
    intro hT
    exact hLeaves.ne_of_running hU (hOwns.unique hT)
  have hBoth : ∀ {i r q k}, e.Owns t ⟨tab, r⟩ → ¬ e.Owns t ⟨tab, q⟩ → e.nowKey tab i r = some k →
      e.wasKey tab i q = some k → q = r := by
    intro i r q k hR hQ hNowR hWasQ
    rcases hKeys.eq_of_keys hInv hNowR hWasQ with
      hEq | ⟨u, hQu, hRu⟩
    · exact hEq
    · rw [hRu.unique hR] at hQu
      exact absurd hQu hQ
  constructor
  · rw [hCommits.db]
    exact hKeys.slots
  · intro u rid hU hMem
    rcases hForeign hU hMem with ⟨-, -, hOwns, hNot⟩
    unfold Owns
    rw [hOther _ hNot]
    exact hOwns
  · intro rid entry u hEntry hWriter
    by_cases hT : e.Owns t ⟨tab, rid⟩
    · rcases hT with ⟨own, hOwn, hOwner⟩
      rw [(hMine _ own hOwn hOwner).1] at hEntry
      cases hEntry
      cases hWriter
    · rw [hOther _ hT] at hEntry
      rw [hCommits.db]
      exact hKeys.flags rid entry u hEntry hWriter
  · intro i
    rw [hNow, hCommits.db]
    exact hKeys.exact i
  · intro i r q k hR hQ
    by_cases hTR : e.Owns t ⟨tab, r⟩
    · rw [hWasT i r hTR] at hR
      by_cases hTQ : e.Owns t ⟨tab, q⟩
      · rw [hWasT i q hTQ] at hQ
        exact (hKeys.exact i).eq_of_holder hR hQ
      · rw [hWasU i q hTQ] at hQ
        exact hBoth hTR hTQ hR hQ
    · rw [hWasU i r hTR] at hR
      by_cases hTQ : e.Owns t ⟨tab, q⟩
      · rw [hWasT i q hTQ] at hQ
        exact (hBoth hTQ hTR hQ hR).symm
      · rw [hWasU i q hTQ] at hQ
        exact hKeys.unique i r q k hR hQ
  · intro u i hU
    rcases rowsOf_of_leaves tab hLeaves hU with ⟨hRunning, hSame⟩
    rw [hSame, hNow, hLost, hCommits.db]
    refine (hKeys.rows u i hRunning).foreign (hKeys.exact i) ?_ ?_
    · intro r hR
      have hNot := (hForeign hU (hSame.symm ▸ hR)).2.2.2
      exact ⟨rfl, hWasU i r hNot, rfl⟩
    · intro q k _ hHas hHad
      exact absurd hHas hHad
  · intro v u i r q k hV hU hVU hR hQ hLoses
    rcases hForeign hV hR with ⟨hV', hR', -, -⟩
    rcases hForeign hU hQ with ⟨hU', hQ', -, hNot⟩
    rw [hLost] at hLoses
    rw [hWasU i q hNot]
    exact hKeys.apart v u i r q k hV' hU' hVU hR' hQ' hLoses

/- Garbage collection does not touch the newest versions. -/
theorem newest_garbageCollection
    (hInv : Consistent base floor none e h)
    (x : Loc) :
    e.garbageCollection.newest x = e.newest x ∧
      e.garbageCollection.committedHead x = e.committedHead x := by
  have hRecord := e.record_garbageCollection x
  have hVersion : e.garbageCollection.mvccVersions x = e.collectEntry x := rfl
  by_cases hOwner : ∃ u, e.Owns u x
  · rcases hOwner with ⟨u, entry, hEntry, hWriter⟩
    rcases hInv.collectEntry_owned hEntry hWriter with ⟨hKept, hAlive⟩
    rw [hAlive] at hRecord
    exact committedHead_congr hRecord (by rw [hVersion, hKept, hEntry])
  · have hFree : ∀ u, ¬ e.Owns u x := fun u hU => hOwner ⟨u, hU⟩
    have hFree' : ∀ u, ¬ e.garbageCollection.Owns u x :=
      fun u hU => hFree u ((hInv.owns_garbageCollection u x).mp hU)
    rw [committedHead_of_free hFree, committedHead_of_free hFree']
    refine and_self_iff.mpr ?_
    unfold newest
    rw [hRecord, hVersion]
    cases hEntry : e.mvccVersions x with
    | none => simp [collectEntry, deadRow, hEntry]
    | some entry =>
      have hOk := ((hInv.rows x).settled hFree).entryOk entry hEntry
      simp only [collectEntry, deadRow, hEntry,
        Option.bind_some, Option.any_some, collect_eq _ hOk, dead_eq _ hOk]
      by_cases hOld : entry.commitTs ≤ e.runningTxns.watermark
      · by_cases hDeleted : entry.isDeleted = true
        · simp [hOld, hDeleted]
        · simp [hOld, hDeleted]
      · simp [hOld]

theorem KeysOk.collect (hKeys : e.KeysOk tab)
    (hInv : Consistent base floor none e h) :
    e.garbageCollection.KeysOk tab := by
  have hCols : ∀ i, (e.garbageCollection.db tab).cols i = (e.db tab).cols i := fun _ => rfl
  have hEntry : ∀ i, (e.garbageCollection.db tab).entry i = (e.db tab).entry i := fun _ => rfl
  have hRows : ∀ u, e.garbageCollection.rowsOf u tab = e.rowsOf u tab := fun _ => rfl
  have hNow : ∀ i, e.garbageCollection.nowKey tab i = e.nowKey tab i := by
    intro i
    funext rid
    unfold nowKey
    rw [hCols, (newest_garbageCollection hInv _).1]
  have hWas : ∀ i, e.garbageCollection.wasKey tab i = e.wasKey tab i := by
    intro i
    funext rid
    unfold wasKey
    rw [hCols, (newest_garbageCollection hInv _).2]
  -- the records of running transactions are not collected
  have hLost : ∀ u i rid, e.Running u → rid ∈ e.rowsOf u tab →
      e.garbageCollection.lostKey tab i rid = e.lostKey tab i rid := by
    intro u i rid hU hMem
    rcases hKeys.owned u rid hU hMem with ⟨entry, hEn, hWriter⟩
    have hAlive := (hInv.collectEntry_owned hEn hWriter).2
    unfold lostKey
    rw [hCols, e.record_garbageCollection, hAlive]
    rfl
  constructor
  · intro rid hThere
    refine hKeys.slots rid ?_
    intro hNone
    have hRecord := e.record_garbageCollection ⟨tab, rid⟩
    change e.garbageCollection.db.record ⟨tab, rid⟩ ≠ none at hThere
    rw [hRecord] at hThere
    split at hThere
    · exact hThere rfl
    · exact hThere hNone
  · intro u rid hU hMem
    exact (hInv.owns_garbageCollection u _).mpr (hKeys.owned u rid hU hMem)
  · intro rid entry u hHere hWriter
    rcases (hInv.owns_garbageCollection u ⟨tab, rid⟩).mp
      ⟨entry, hHere, hWriter⟩ with ⟨old, hOld, hOwner⟩
    have hKept := (hInv.collectEntry_owned hOld hOwner).1
    change e.collectEntry ⟨tab, rid⟩ = some entry at hHere
    rw [hKept] at hHere
    cases hHere
    exact hKeys.flags rid entry u hOld hOwner
  · intro i
    rw [hNow, hEntry]
    exact hKeys.exact i
  · intro i
    rw [hWas]
    exact hKeys.unique i
  · intro u i hU
    rw [hNow, hWas, hEntry, hRows]
    refine (hKeys.rows u i hU).foreign (hKeys.exact i) ?_ ?_
    · intro r hR
      exact ⟨rfl, rfl, hLost u i r hU hR⟩
    · intro q k _ hHas hHad
      exact absurd hHas hHad
  · intro v u i r q k hV hU hVU hR hQ hLoses
    rw [hLost v i r hV hR] at hLoses
    rw [hWas]
    exact hKeys.apart v u i r q k hV hU hVU hR hQ hLoses

end Ends

------------
-- Abort
------------

/- The rows of a table among some rows. -/
def ridsIn (tab : TabName) (locs : List Loc) : List Rid :=
  (locs.filter (fun x => x.tab = tab)).map Loc.rid

/- A transaction is taking its rows back: the rest of them can
  be taken back, and their entries say which keys they get. -/
structure Unwinding
    (e : Engine)
    (t : TxnId)
    (tab : TabName)
    (now was lost : Nat → Rid → Option IndexKey)
    (todo done : List Rid) :
    Prop where
  keys : ∀ i, KeyMap.Retractable ((e.db tab).entry i) (now i) (was i) (lost i) todo done
  rows : ∀ rid, KeyMap.Pending todo done rid → ∃ entry, e.mvccVersions ⟨tab, rid⟩ = some entry ∧
        entry.writerTxn = some t ∧ (entry.rollbackDeletePhysical = true ∨
          entry.rollbackRestorePhysical = true) ∧ ∀ i, keyIn ((e.db tab).cols i)
              (entry.rolledHead (e.db.record ⟨tab, rid⟩)) = was i rid ∧
          keyIn ((e.db tab).cols i) (e.db.record ⟨tab, rid⟩) = lost i rid

section Abort

variable {now was lost : Nat → Rid → Option IndexKey}
variable {e e' : Engine} {t : TxnId} {tab : TabName}
variable {todo done : List Rid}

theorem rowsOf_eq_ridsIn : e.rowsOf t tab =
      ridsIn tab ((e.txn t).writeSet.map loc) := by
  unfold rowsOf ridsIn
  rw [filter_map, map_map]
  rfl

theorem mem_ridsIn {rid : Rid}
    {locs : List Loc} : rid ∈ ridsIn tab locs ↔ (⟨tab, rid⟩ : Loc) ∈ locs := by
  unfold ridsIn
  simp only [mem_map, mem_filter, decide_eq_true_eq]
  constructor
  · rintro ⟨x, ⟨hMem, rfl⟩, rfl⟩
    exact hMem
  · intro hMem
    exact ⟨_, ⟨hMem, rfl⟩, rfl⟩

theorem ridsIn_cons_self (rid : Rid)
    (locs : List Loc) :
    ridsIn tab (⟨tab, rid⟩ :: locs) = rid :: ridsIn tab locs := by
  simp [ridsIn]

theorem ridsIn_cons_of_ne
    {x : Loc}
    (hTab : x.tab ≠ tab)
    (locs : List Loc) :
    ridsIn tab (x :: locs) = ridsIn tab locs := by
  simp [ridsIn, hTab]

/- The table is the same as before. -/
theorem Unwinding.congr (hState : Unwinding e t tab now was lost todo done)
    (hDb : e'.db tab = e.db tab)
    (hVersions : ∀ rid,
      e'.mvccVersions ⟨tab, rid⟩ = e.mvccVersions ⟨tab, rid⟩) :
    Unwinding e' t tab now was lost todo done := by
  constructor
  · rw [hDb]
    exact hState.keys
  · intro rid hPending
    have hRecord : e'.db.record ⟨tab, rid⟩ = e.db.record ⟨tab, rid⟩ := by
      unfold Db.record
      rw [hDb]
    rw [hVersions, hDb, hRecord]
    exact hState.rows rid hPending

/- One row of the table is taken back. -/
theorem Unwinding.take
    {rid : Rid}
    {entry : MvccEntry}
    (hState : Unwinding e t tab now was lost (rid :: todo) done)
    (hOpen : rid ∉ done)
    (hEntry : e.mvccVersions ⟨tab, rid⟩ = some entry)
    (hBack : TakesBack ⟨tab, rid⟩ entry e e') :
    (∀ i, (e'.db tab).cols i = (e.db tab).cols i) ∧ Unwinding e' t tab
        (fun i => update (now i) rid (was i rid)) was lost todo
          (rid :: done) := by
  rcases hState.rows rid ⟨mem_cons_self, hOpen⟩ with ⟨entry', hEntry', -, hFlags, hKeys⟩
  obtain rfl : entry = entry' := by
    rw [hEntry] at hEntry'
    exact Option.some.inj hEntry'
  have hRestores := hBack.restores
  rw [if_pos hFlags] at hRestores
  have hMoves := hRestores.keys
  have hCols : ∀ i, (e'.db tab).cols i = (e.db tab).cols i := hMoves.layout
  refine ⟨hCols, ?_, ?_⟩
  · intro i
    have hEntries : (e'.db tab).entry i = move ((e.db tab).entry i) (lost i rid) (was i rid)
          rid := by
      rw [← (hKeys i).1, ← (hKeys i).2]
      exact hMoves.entries i
    rw [hEntries]
    exact (hState.keys i).take hOpen
  · intro q hPending
    have hQ : q ≠ rid := by
      rintro rfl
      exact hPending.waiting mem_cons_self
    have hLoc : (⟨tab, q⟩ : Loc) ≠ ⟨tab, rid⟩ := fun hEq => hQ (congrArg Loc.rid hEq)
    rw [hBack.versions, update_of_ne hLoc, hBack.record, update_of_ne hLoc]
    simp only [hCols]
    exact hState.rows q ⟨mem_cons_of_mem _ hPending.mem,
      fun hD => hPending.waiting (mem_cons_of_mem _ hD)⟩

/- One write of the list. -/
theorem Unwinding.step
    {w : WriteRecord}
    {locs processed : List Loc}
    (hState : Unwinding e t tab now was lost (ridsIn tab (w.loc :: locs))
      (ridsIn tab processed))
    (hRun : e.abortWrite t processed w = some e') :
    ∃ now', (∀ i, (e'.db tab).cols i = (e.db tab).cols i) ∧
      Unwinding e' t tab now' was lost (ridsIn tab locs)
        (ridsIn tab (w.loc :: processed)) ∧
      ∀ i, retracted (now' i) (was i) (ridsIn tab locs)
        (ridsIn tab (w.loc :: processed)) =
        retracted (now i) (was i) (ridsIn tab (w.loc :: locs))
          (ridsIn tab processed) := by
  have hCase := (abortWrite_cases hRun).2
  by_cases hTab : w.loc.tab = tab
  · obtain ⟨rid, hLoc⟩ : ∃ rid, w.loc = ⟨tab, rid⟩ := ⟨w.loc.rid, by rw [← hTab]⟩
    rw [hLoc] at hCase hState ⊢
    rw [ridsIn_cons_self] at hState ⊢
    rw [ridsIn_cons_self]
    rcases hCase with ⟨hSkip, hDb, hVs⟩ | ⟨entry, hNew, hEntry, hWriter, hBack⟩
    · -- a row that is passed over has been taken back
      have hDone : rid ∈ ridsIn tab processed := by
        by_contra hOpen
        rcases hState.rows rid ⟨mem_cons_self, hOpen⟩ with ⟨entry, hEntry, hWriter, -, -⟩
        exact hSkip (fun hMem => hOpen (mem_ridsIn.mpr hMem)) ⟨entry, hEntry, hWriter⟩
      have hNext : Unwinding e t tab now was lost
          (ridsIn tab locs) (rid :: ridsIn tab processed) := by
        refine ⟨fun i => (hState.keys i).skip hDone, ?_⟩
        intro q hPending
        exact hState.rows q ⟨mem_cons_of_mem _ hPending.mem, fun hD => hPending.waiting
              (mem_cons_of_mem _ hD)⟩
      exact ⟨now, fun i => by rw [hDb], hNext.congr (by rw [hDb]) (fun _ => by rw [hVs]),
        fun i => retracted_skip hDone⟩
    · have hOpen : rid ∉ ridsIn tab processed := fun hMem => hNew (mem_ridsIn.mp hMem)
      rcases hState.take hOpen hEntry hBack with ⟨hCols, hNext⟩
      exact ⟨_, hCols, hNext, fun i => retracted_take hOpen⟩
  · rw [ridsIn_cons_of_ne hTab] at hState ⊢
    rw [ridsIn_cons_of_ne hTab]
    have hSame : e'.db tab = e.db tab ∧ ∀ rid, e'.mvccVersions ⟨tab, rid⟩ =
          e.mvccVersions ⟨tab, rid⟩ := by
      rcases hCase with ⟨-, hDb, hVs⟩ | ⟨entry, -, -, -, hBack⟩
      · exact ⟨by rw [hDb], fun _ => by rw [hVs]⟩
      · refine ⟨hBack.others tab (Ne.symm hTab), ?_⟩
        intro rid
        rw [hBack.versions, update_of_ne]
        exact fun hEq => hTab (congrArg Loc.tab hEq).symm
    exact ⟨now, fun i => by rw [hSame.1], hState.congr hSame.1 hSame.2, fun i => rfl⟩

/- The whole list: every row has the key it gets back. -/
theorem retract_abortWrites
    {ws : List WriteRecord}
    {processed : List Loc}
    (hState : Unwinding e t tab now was lost (ridsIn tab (ws.map loc))
        (ridsIn tab processed))
    (hRun : abortWrites t ws processed e = some e') :
    (∀ i, (e'.db tab).cols i = (e.db tab).cols i) ∧ ∀ i,
        Exact ((e'.db tab).entry i)
        (retracted (now i) (was i) (ridsIn tab (ws.map loc))
          (ridsIn tab processed)) := by
  induction ws generalizing e processed now with
  | nil =>
    cases hRun
    refine ⟨fun _ => rfl, fun i => ?_⟩
    have hNil : ridsIn tab (([] : List WriteRecord).map loc) = [] := rfl
    exact (hState.keys i).exact
  | cons w rest ih =>
    unfold abortWrites at hRun
    cases hStep : e.abortWrite t processed w with
    | none => simp [hStep] at hRun
    | some e₁ =>
      simp only [hStep] at hRun
      rw [map_cons] at hState ⊢
      rcases hState.step hStep with ⟨now', hCols, hNext, hSame⟩
      rcases ih hNext hRun with ⟨hCols', hExact⟩
      refine ⟨fun i => (hCols' i).trans (hCols i), fun i => ?_⟩
      rw [← hSame]
      exact hExact i

end Abort

section Aborted

variable {base : Loc → Option RmRecord} {floor : Int} {h : Hist}
variable {rejected : Option TxnId}
variable {e e₁ e' : Engine} {t : TxnId} {tab : TabName}

/- The versions of a transaction can be taken back. -/
theorem unwinding_of_rows (hInv : Consistent base floor rejected e h)
    (hOwned : ∀ rid ∈ e.rowsOf t tab, e.Owns t ⟨tab, rid⟩)
    (hRows : ∀ i, Retractable ((e.db tab).entry i) (e.nowKey tab i)
      (e.wasKey tab i)
        (e.lostKey tab i) (e.rowsOf t tab) []) :
    Unwinding e t tab (e.nowKey tab) (e.wasKey tab) (e.lostKey tab)
      (ridsIn tab ((e.txn t).writeSet.map loc)) (ridsIn tab []) := by
  rw [← rowsOf_eq_ridsIn]
  refine ⟨hRows, ?_⟩
  intro rid hPending
  rcases hOwned rid hPending.mem with ⟨entry, hEntry, hWriter⟩
  have hOwned := (hInv.rows _).owned entry t hEntry hWriter
  refine ⟨entry, hEntry, hWriter, hOwned.rollback, fun i => ?_⟩
  unfold wasKey lostKey
  rw [committedHead_of_owned hEntry hWriter]
  exact ⟨rfl, rfl⟩

theorem KeysOk.unwinding
    (hKeys : e.KeysOk tab)
    (hInv : Consistent base floor rejected e h)
    (hRunning : e.Running t) :
    Unwinding e t tab (e.nowKey tab) (e.wasKey tab) (e.lostKey tab)
      (ridsIn tab ((e.txn t).writeSet.map loc)) (ridsIn tab []) :=
  unwinding_of_rows hInv (fun rid => hKeys.owned t rid hRunning)
    (fun i => hKeys.rows t i hRunning)

/- A row that has an owner after an abort was not touched. -/
theorem not_owns_of_abort
    {u : TxnId}
    {x : Loc}
    (hInv : Consistent base floor rejected e h)
    (hBack : abortWrites t (e.txn t).writeSet [] e = some e₁)
    (hEnds : Ends t e₁ e')
    (hOwns : e'.Owns u x) :
    ¬ e.Owns t x := by
  rintro ⟨entry, hEntry, hWriter⟩
  rcases hOwns with ⟨old, hOld, hBad⟩
  have hRolled := ((hInv.rows x).owned entry t hEntry hWriter).rolled
  rw [((hInv.taken_back hBack hEnds).1 x entry hEntry hWriter).2] at hOld
  have hNone := (hRolled.entryOk old hOld).writer
  cases hNone.symm.trans hBad

theorem KeysOk.abort
    (hKeys : e.KeysOk tab)
    (hInv : Consistent base floor rejected e h)
    (hInv' : Consistent base floor none e' h)
    (hPlain : ∀ rid u, ¬ e.PlainOwns u ⟨tab, rid⟩)
    (hPlain' : ∀ rid u, ¬ e'.PlainOwns u ⟨tab, rid⟩)
    (hRunning : e.Running t)
    (hBack : abortWrites t (e.txn t).writeSet [] e = some e₁)
    (hEnds : Ends t e₁ e') :
    e'.KeysOk tab := by
  have hUnwinds := (abortWrites_spec hBack).1
  have hLeaves := Consistent.leaves_of_ends hRunning hUnwinds hEnds
  rcases hInv.taken_back hBack hEnds with ⟨hMine, hOther⟩
  rcases retract_abortWrites (hKeys.unwinding hInv hRunning) hBack
    with ⟨hCols₁, hExact₁⟩
  rw [← rowsOf_eq_ridsIn] at hExact₁
  have hCols : ∀ i, (e'.db tab).cols i = (e.db tab).cols i := by
    rw [hEnds.db]
    exact hCols₁
  have hSlots : ∀ rid, (e'.db tab).HasSlot rid ↔ (e.db tab).HasSlot rid := by
    intro rid
    unfold Table.HasSlot
    rw [hEnds.db, hUnwinds.slots]
  -- nothing is owned by the transaction any more
  have hLeft : ∀ rid, e.Owns t ⟨tab, rid⟩ → ∀ u, ¬ e'.Owns u ⟨tab, rid⟩ :=
    fun rid hT u hU => not_owns_of_abort hInv hBack hEnds hU hT
  have hFlags : ∀ rid entry u, e'.mvccVersions ⟨tab, rid⟩ = some entry → entry.writerTxn = some u →
        e.mvccVersions ⟨tab, rid⟩ = some entry := by
    intro rid entry u hEntry hWriter
    have hNot := not_owns_of_abort hInv hBack hEnds ⟨entry, hEntry, hWriter⟩
    rw [(hOther _ hNot).2] at hEntry
    exact hEntry
  -- an abort does not change what is committed
  have hHead : ∀ rid, e'.committedHead ⟨tab, rid⟩ = e.committedHead ⟨tab, rid⟩ := by
    intro rid
    rw [committedHead_eq_valueAt hInv' (hPlain' rid), committedHead_eq_valueAt hInv (hPlain rid),
      hEnds.lastCommitTs, hUnwinds.lastCommitTs]
  have hWas : ∀ i, e'.wasKey tab i = e.wasKey tab i := by
    intro i
    funext rid
    unfold wasKey
    rw [hCols, hHead]
  have hNowMine : ∀ i rid, e.Owns t ⟨tab, rid⟩ → e'.nowKey tab i rid = e.wasKey tab i rid := by
    intro i rid hT
    rw [← hWas]
    unfold nowKey wasKey
    rw [committedHead_of_free (hLeft rid hT)]
  have hSame : ∀ i rid, ¬ e.Owns t ⟨tab, rid⟩ → e'.nowKey tab i rid = e.nowKey tab i rid ∧
        e'.lostKey tab i rid = e.lostKey tab i rid := by
    intro i rid hNot
    rcases hOther _ hNot with ⟨hRecord, hVersions⟩
    unfold nowKey lostKey
    rw [hCols, (committedHead_congr hRecord hVersions).1, hRecord]
    exact ⟨rfl, rfl⟩
  have hNow : ∀ i, e'.nowKey tab i = retracted (e.nowKey tab i) (e.wasKey tab i)
        (e.rowsOf t tab) [] := by
    intro i
    funext rid
    unfold retracted
    by_cases hT : e.Owns t ⟨tab, rid⟩
    · have hMem := (mem_rowsOf_of_owns hInv hT).2
      rw [hNowMine i rid hT, if_pos ⟨hMem, by simp⟩]
    · rw [(hSame i rid hT).1, if_neg]
      exact fun hMem => hT (hKeys.owned t rid hRunning hMem.1)
  have hExact : ∀ i, Exact ((e'.db tab).entry i) (e'.nowKey tab i) := by
    intro i
    rw [hNow, hEnds.db]
    exact hExact₁ i
  -- the rows of the others
  have hForeign : ∀ {u rid}, e'.Running u → rid ∈ e'.rowsOf u tab →
        e.Running u ∧ u ≠ t ∧ rid ∈ e.rowsOf u tab ∧
          e.Owns u ⟨tab, rid⟩ ∧ ¬ e.Owns t ⟨tab, rid⟩ := by
    intro u rid hU hMem
    rcases rowsOf_of_leaves tab hLeaves hU with ⟨hRun, hRows⟩
    rw [hRows] at hMem
    have hOwns := hKeys.owned u rid hRun hMem
    have hNe := hLeaves.ne_of_running hU
    exact ⟨hRun, hNe, hMem, hOwns, fun hT => hNe (hOwns.unique hT)⟩
  refine ⟨?_, ?_, ?_, hExact, ?_, ?_, ?_⟩
  · intro rid hThere
    rw [hSlots]
    by_cases hT : e.Owns t ⟨tab, rid⟩
    · rcases hT with ⟨entry, hEntry, hWriter⟩
      exact (hKeys.flags rid entry t hEntry hWriter).1
    · exact hKeys.slots rid (fun hNone => hThere ((hOther _ hT).1.trans hNone))
  · intro u rid hU hMem
    rcases hForeign hU hMem with ⟨-, -, -, hOwns, hNot⟩
    unfold Owns
    rw [(hOther _ hNot).2]
    exact hOwns
  · intro rid entry u hEntry hWriter
    rw [hSlots]
    exact hKeys.flags rid entry u (hFlags rid entry u hEntry hWriter) hWriter
  · intro i
    rw [hWas]
    exact hKeys.unique i
  · intro u i hU
    rcases rowsOf_of_leaves tab hLeaves hU with ⟨hRun, hRows⟩
    have hExact' := hExact i
    rw [hRows, hWas]
    refine (hKeys.rows u i hRun).foreign hExact' ?_ ?_
    · intro r hR
      rcases hForeign hU (hRows.symm ▸ hR) with ⟨-, -, -, -, hNot⟩
      rcases hSame i r hNot with ⟨hNowR, hLostR⟩
      exact ⟨hNowR, rfl, hLostR⟩
    · intro q k hQ hHas hHad r hR
      rcases hForeign hU (hRows.symm ▸ hR) with ⟨-, hNe, -, -, hNot⟩
      -- only a row that was taken back has another key
      have hT : e.Owns t ⟨tab, q⟩ := by
        by_contra hT
        rw [(hSame i q hT).1] at hHas
        exact hHad hHas
      rw [hNowMine i q hT] at hHas
      have hMem := (mem_rowsOf_of_owns hInv hT).2
      constructor
      · intro hWasR
        exact hNot (hKeys.unique i q r k hHas hWasR ▸ hT)
      · intro hLoses
        exact hKeys.apart u t i r q k hRun hRunning hNe hR hMem hLoses hHas
  · intro v u i r q k hV hU hVU hR hQ hLoses
    rcases hForeign hV hR with ⟨hV', -, hR', -, hNot⟩
    rcases hForeign hU hQ with ⟨hU', -, hQ', -, -⟩
    rw [(hSame i r hNot).2] at hLoses
    rw [hWas]
    exact hKeys.apart v u i r q k hV' hU' hVU hR' hQ' hLoses

end Aborted

end Engine

end Rmdb
