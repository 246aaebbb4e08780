import Mathlib.Data.List.Induction
import Mathlib.Data.List.Nodup
import Mathlib.Logic.Function.Basic

/-
  This file models `LRUReplacer`, which picks the frame of the
  buffer pool that is given to another page, and shows that
  it picks the frame whose last unpin is the oldest.

  An iterator of `LRUlist_` is modelled by the number of the
  list node it points to; every node has a number of its own.
  The frame ids are those below the size of the replacer.

  Key definitions include:
    * `LRUReplacer`, with `victim`, `pin` and `unpin`
    * `LRUReplacer.LastUnpin`

  Key theorems include:
    * `LRUReplacer.victim_eq`
    * `LRUReplacer.lru_of_run`
-/

------------
-- The Replacer
------------

namespace Rmdb

/- A node of `LRUlist_`. -/
structure LRUNode (n : Nat) where
  iter : Nat
  frame : Fin n
deriving DecidableEq, Repr

/- A replacer for `n` frames; the most recently unpinned frame
  is the first of the list. -/
structure LRUReplacer (n : Nat) where
  lruList : List (LRUNode n)
  lruHash : Fin n → Option Nat
  isPinned : Fin n → Bool
  nextIter : Nat

/- The calls of the buffer pool manager. -/
inductive ReplacerCall (n : Nat) where
| victim
| pin (f : Fin n)
| unpin (f : Fin n)
deriving DecidableEq, Repr

namespace LRUReplacer

variable {n : Nat}

def init (n : Nat) : LRUReplacer n where
  lruList := []
  lruHash := fun _ => none
  isPinned := fun _ => true
  nextIter := 0

/- `victim` returns false on an empty list. -/
def victim (r : LRUReplacer n) : Option (Fin n × LRUReplacer n) :=
  match r.lruList.getLast? with
  | none => none
  | some node =>
    some (node.frame,
      { r with
        isPinned := Function.update r.isPinned node.frame true
        lruHash := Function.update r.lruHash node.frame none
        lruList := r.lruList.dropLast })

def pin (r : LRUReplacer n) (f : Fin n) : LRUReplacer n :=
  if r.isPinned f then
    r
  else
    let r := { r with isPinned := Function.update r.isPinned f true }
    match r.lruHash f with
    | none => r
    | some it =>
      { r with
        lruList := r.lruList.filter (fun node => node.iter ≠ it)
        lruHash := Function.update r.lruHash f none }

def unpin (r : LRUReplacer n) (f : Fin n) : LRUReplacer n :=
  if r.isPinned f then
    { r with
      isPinned := Function.update r.isPinned f false
      lruList := ⟨r.nextIter, f⟩ :: r.lruList
      lruHash := Function.update r.lruHash f (some r.nextIter)
      nextIter := r.nextIter + 1 }
  else
    r

def step (r : LRUReplacer n) :
    ReplacerCall n → LRUReplacer n
| .victim => (r.victim.map Prod.snd).getD r
| .pin f => r.pin f
| .unpin f => r.unpin f

/- The state after a sequence of calls. -/
def run (calls : List (ReplacerCall n)) : LRUReplacer n :=
  calls.foldl step (init n)

theorem run_concat
    (calls : List (ReplacerCall n))
    (c : ReplacerCall n) :
    run (calls ++ [c]) = (run calls).step c := by
  simp [run]

def frames (r : LRUReplacer n) : List (Fin n) :=
  r.lruList.map LRUNode.frame

------------
-- List, Hash and Flags
------------

/- The list has no duplicates, the hash has the positions of
  its frames, and its frames are the ones that are not pinned. -/
structure Sound (r : LRUReplacer n) : Prop where
  nodup : r.frames.Nodup
  iters : (r.lruList.map LRUNode.iter).Nodup
  hash : ∀ f it, r.lruHash f = some it ↔ ⟨it, f⟩ ∈ r.lruList
  pinned : ∀ f, r.isPinned f = false ↔ f ∈ r.frames
  fresh : ∀ node ∈ r.lruList, node.iter < r.nextIter

theorem sound_init (n : Nat) : (init n).Sound := by
  constructor
  · exact List.nodup_nil
  · exact List.nodup_nil
  · simp [init]
  · simp [init, frames]
  · simp [init]

section Sound

variable {r : LRUReplacer n} {f : Fin n} {it : Nat} (hSound : r.Sound)

include hSound

theorem Sound.frame_eq_iff
    {node : LRUNode n}
    (hMem : ⟨it, f⟩ ∈ r.lruList)
    (hNode : node ∈ r.lruList) :
    node.frame = f ↔ node.iter = it := by
  have hFrames := List.inj_on_of_nodup_map hSound.nodup hNode hMem
  have hIters := List.inj_on_of_nodup_map hSound.iters hNode hMem
  constructor
  · intro hFrame
    rw [hFrames hFrame]
  · intro hIter
    rw [hIters hIter]

/- Pinning a frame of the list takes its node out. -/
theorem Sound.pin_eq (hMem : ⟨it, f⟩ ∈ r.lruList) :
    r.pin f =
      { r with
        isPinned := Function.update r.isPinned f true
        lruHash := Function.update r.lruHash f none
        lruList := r.lruList.filter (fun node => node.iter ≠ it) } := by
  have hFree : r.isPinned f = false :=
    (hSound.pinned f).mpr (List.mem_map_of_mem hMem)
  have hHash : r.lruHash f = some it := (hSound.hash f it).mpr hMem
  simp [pin, hFree, hHash]

theorem Sound.exists_node (hPinned : r.isPinned f = false) :
    ∃ it, ⟨it, f⟩ ∈ r.lruList := by
  rcases List.mem_map.mp ((hSound.pinned f).mp hPinned) with ⟨node, hNode, rfl⟩
  exact ⟨node.iter, hNode⟩

theorem Sound.pin (f : Fin n) : (r.pin f).Sound := by
  cases hPinned : r.isPinned f with
  | true => simpa [LRUReplacer.pin, hPinned] using hSound
  | false =>
    rcases hSound.exists_node hPinned with ⟨it, hMem⟩
    rw [hSound.pin_eq hMem]
    have hSub : (r.lruList.filter (fun node => node.iter ≠ it)).Sublist r.lruList :=
      List.filter_sublist
    constructor
    · exact (hSub.map _).nodup hSound.nodup
    · exact (hSub.map _).nodup hSound.iters
    · intro g jt
      have hIff := hSound.hash g jt
      have hSame : ⟨jt, g⟩ ∈ r.lruList → (g = f ↔ jt = it) := hSound.frame_eq_iff hMem
      simp only [Function.update_apply, List.mem_filter]
      grind
    · intro g
      have hIff := hSound.pinned g
      simp only [frames, List.mem_map, List.mem_filter] at hIff ⊢
      have hSame : ∀ node ∈ r.lruList, (node.frame = f ↔ node.iter = it) :=
        fun node hNode => hSound.frame_eq_iff hMem hNode
      simp only [Function.update_apply]
      grind
    · intro node hNode
      exact hSound.fresh node (hSub.subset hNode)

theorem Sound.unpin (f : Fin n) : (r.unpin f).Sound := by
  cases hPinned : r.isPinned f with
  | false => simpa [LRUReplacer.unpin, hPinned] using hSound
  | true =>
    have hNot : f ∉ r.frames := by
      intro hMem
      rw [(hSound.pinned f).mpr hMem] at hPinned
      cases hPinned
    simp only [LRUReplacer.unpin, hPinned, if_true]
    constructor
    · exact List.nodup_cons.mpr ⟨hNot, hSound.nodup⟩
    · refine List.nodup_cons.mpr ⟨?_, hSound.iters⟩
      intro hMem
      rcases List.mem_map.mp hMem with ⟨node, hNode, hEq⟩
      exact absurd hEq (Nat.ne_of_lt (hSound.fresh node hNode))
    · intro g jt
      have hIff := hSound.hash g jt
      have hGone : ⟨jt, f⟩ ∉ r.lruList := fun hMem => hNot (List.mem_map_of_mem hMem)
      simp only [Function.update_apply, List.mem_cons, LRUNode.mk.injEq]
      grind
    · intro g
      have hIff := hSound.pinned g
      simp only [frames, Function.update_apply, List.map_cons, List.mem_cons] at hIff ⊢
      grind
    · intro node hNode
      rcases List.mem_cons.mp hNode with rfl | hNode
      · exact Nat.lt_succ_self _
      · exact Nat.lt_succ_of_lt (hSound.fresh node hNode)

/- `victim` pins the frame at the end of the list. -/
theorem victim_eq
    {rest : List (LRUNode n)}
    (hList : r.lruList = rest ++ [⟨it, f⟩]) :
    r.victim = some (f, r.pin f) := by
  have hMem : ⟨it, f⟩ ∈ r.lruList := by simp [hList]
  have hIters := hSound.iters
  rw [hList, List.map_append] at hIters
  have hRest : r.lruList.filter (fun node => node.iter ≠ it) = rest := by
    rw [hList, List.filter_append, List.filter_eq_self.mpr]
    · simp
    · intro node hNode
      simpa using (List.nodup_append.mp hIters).2.2 _ (List.mem_map_of_mem hNode) it (by simp)
  rw [hSound.pin_eq hMem, hRest]
  simp [victim, hList]

theorem victim_eq_none_iff : r.victim = none ↔ ∀ f, r.isPinned f = true := by
  rcases List.eq_nil_or_concat' r.lruList with hNil | ⟨rest, node, hList⟩
  · have hFrames : r.frames = [] := by simp [frames, hNil]
    have hPinned : ∀ f, r.isPinned f = true := by
      intro f
      rw [← Bool.not_eq_false, hSound.pinned, hFrames]
      exact List.not_mem_nil
    simp [victim, hNil, hPinned]
  · rw [victim_eq hSound hList]
    simp only [reduceCtorEq, false_iff, not_forall, Bool.not_eq_true]
    refine ⟨node.frame, (hSound.pinned _).mpr (List.mem_map_of_mem ?_)⟩
    simp [hList]

/- A call changes the list as a pin or an unpin does, if at
  all. -/
theorem Sound.step_cases (c : ReplacerCall n) :
    r.step c = r ∧ (∀ f, c = .unpin f → r.isPinned f = false) ∨
      (∃ f, r.step c = r.pin f ∧ ∀ g, c ≠ .unpin g) ∨
      ∃ f, c = .unpin f ∧ r.isPinned f = true ∧ r.step c = r.unpin f := by
  cases c with
  | pin f => exact .inr (.inl ⟨f, rfl, by simp⟩)
  | unpin f =>
    cases hPinned : r.isPinned f with
    | true => exact .inr (.inr ⟨f, rfl, hPinned, rfl⟩)
    | false =>
      refine .inl ⟨by simp [step, LRUReplacer.unpin, hPinned], ?_⟩
      rintro g ⟨⟩
      exact hPinned
  | victim =>
    rcases List.eq_nil_or_concat' r.lruList with hNil | ⟨rest, node, hList⟩
    · exact .inl ⟨by simp [step, victim, hNil], by simp⟩
    · exact .inr (.inl ⟨node.frame, by simp [step, victim_eq hSound hList], by simp⟩)

theorem Sound.step (c : ReplacerCall n) : (r.step c).Sound := by
  rcases hSound.step_cases c with ⟨hEq, -⟩ | ⟨f, hEq, -⟩ | ⟨f, -, -, hEq⟩
  · rwa [hEq]
  · rw [hEq]
    exact hSound.pin f
  · rw [hEq]
    exact hSound.unpin f

end Sound

theorem sound_run (calls : List (ReplacerCall n)) : (run calls).Sound := by
  induction calls using List.reverseRecOn with
  | nil => exact sound_init n
  | append_singleton calls c ih =>
    rw [run_concat]
    exact ih.step c

------------
-- The Oldest Unpin
------------

/- Whether the frame is pinned, told by the calls, the newest
  one first: what counts is the last `unpin` of the frame,
  `pin` of it or `victim` that returned it. -/
def held (f : Fin n) : List (ReplacerCall n) → Bool
| [] => true
| .unpin g :: before => if g = f then false else held f before
| .pin g :: before => if g = f then true else held f before
| .victim :: before =>
  if (run before.reverse).victim.map Prod.fst = some f then true else held f before

/- The flag says what the calls say. -/
theorem isPinned_run
    (calls : List (ReplacerCall n))
    (f : Fin n) :
    (run calls).isPinned f = held f calls.reverse := by
  induction calls using List.reverseRecOn with
  | nil => rfl
  | append_singleton calls c ih =>
    rw [run_concat, List.reverse_concat]
    cases c with
    | unpin g =>
      by_cases hG : g = f
      · subst hG
        cases hPinned : (run calls).isPinned g <;> simp [step, unpin, held, hPinned]
      · simp only [step, unpin, held, if_neg hG, ← ih]
        split <;> simp [Function.update_of_ne (Ne.symm hG)]
    | pin g =>
      by_cases hG : g = f
      · subst hG
        simp only [step, pin, held, if_true]
        split
        · assumption
        · split <;> simp
      · simp only [step, pin, held, if_neg hG, ← ih]
        split
        · rfl
        · split <;> simp [Function.update_of_ne (Ne.symm hG)]
    | victim =>
      simp only [step, held, List.reverse_reverse, ← ih]
      cases hList : (run calls).lruList.getLast? with
      | none => simp [victim, hList]
      | some node =>
        by_cases hF : node.frame = f
        · simp [victim, hList, hF]
        · simp [victim, hList, hF, Function.update_of_ne (Ne.symm hF)]

/- The `i`-th call unpins the frame, and the frame is pinned
  when it is made. -/
def Unpins
    (calls : List (ReplacerCall n))
    (f : Fin n)
    (i : Nat) :
    Prop :=
  calls[i]? = some (.unpin f) ∧ held f (calls.take i).reverse = true

/- The last effective unpin of the frame is the `i`-th call. -/
def LastUnpin
    (calls : List (ReplacerCall n))
    (f : Fin n)
    (i : Nat) :
    Prop :=
  Unpins calls f i ∧ ∀ j, Unpins calls f j → j ≤ i

theorem Unpins.lt
    {calls : List (ReplacerCall n)}
    {f : Fin n}
    {i : Nat}
    (hUnpins : Unpins calls f i) :
    i < calls.length :=
  (List.getElem?_eq_some_iff.mp hUnpins.1).1

theorem unpins_concat
    {calls : List (ReplacerCall n)}
    {c : ReplacerCall n}
    {f : Fin n}
    {i : Nat} :
    Unpins (calls ++ [c]) f i ↔
      Unpins calls f i ∨ i = calls.length ∧ c = .unpin f ∧
      (run calls).isPinned f = true := by
  unfold Unpins
  simp only [← isPinned_run]
  rcases Nat.lt_trichotomy i calls.length with hLt | rfl | hGt
  · simp [List.getElem?_append_left hLt, List.take_append_of_le_length (Nat.le_of_lt hLt),
      Nat.ne_of_lt hLt]
  · simp
  · have hNone : calls[i]? = none := List.getElem?_eq_none (Nat.le_of_lt hGt)
    have hNone' : (calls ++ [c])[i]? = none :=
      List.getElem?_eq_none (by rw [List.length_append]; exact hGt)
    simp [hNone, hNone', Nat.ne_of_gt hGt]

/- A call that does not unpin the frame leaves its last
  effective unpin. -/
theorem LastUnpin.concat
    {calls : List (ReplacerCall n)}
    {c : ReplacerCall n}
    {f : Fin n}
    {i : Nat}
    (hLast : LastUnpin calls f i)
    (hNot : c = .unpin f → (run calls).isPinned f = false) :
    LastUnpin (calls ++ [c]) f i := by
  refine ⟨unpins_concat.mpr (.inl hLast.1), ?_⟩
  intro j hUnpins
  rcases unpins_concat.mp hUnpins with hOld | ⟨-, hEq, hPinned⟩
  · exact hLast.2 j hOld
  · rw [hNot hEq] at hPinned
    cases hPinned

/- The list is in the order of the last effective unpins, the
  oldest one at its end. -/
def Recent (calls : List (ReplacerCall n)) (fs : List (Fin n)) : Prop :=
  ∃ time : Fin n → Nat, (∀ f ∈ fs, LastUnpin calls f (time f)) ∧
    fs.Pairwise (fun f g => time g < time f)

theorem frames_pin_sublist
    (r : LRUReplacer n)
    (f : Fin n) :
    (r.pin f).frames.Sublist r.frames := by
  unfold pin
  split
  · exact List.Sublist.refl _
  · dsimp only
    split
    · exact List.Sublist.refl _
    · exact List.filter_sublist.map _

/- What the frames that stay keep, when the call unpins none
  of them. -/
theorem Recent.sublist
    {calls : List (ReplacerCall n)}
    {c : ReplacerCall n}
    {fs gs : List (Fin n)}
    (hRecent : Recent calls fs)
    (hSub : gs.Sublist fs)
    (hNot : ∀ f, c = .unpin f → (run calls).isPinned f = false) :
    Recent (calls ++ [c]) gs := by
  rcases hRecent with ⟨time, hLast, hOrder⟩
  exact ⟨time, fun f hMem => (hLast f (hSub.subset hMem)).concat (hNot f), hOrder.sublist hSub⟩

theorem recent_run (calls : List (ReplacerCall n)) :
    Recent calls (run calls).frames := by
  induction calls using List.reverseRecOn with
  | nil => exact ⟨fun _ => 0, by simp [run, init, frames]⟩
  | append_singleton calls c ih =>
    have hSound := sound_run calls
    rw [run_concat]
    rcases hSound.step_cases c with ⟨hEq, hNot⟩ | ⟨f, hEq, hNot⟩ | ⟨f, rfl, hPinned, hEq⟩
    · rw [hEq]
      exact ih.sublist (List.Sublist.refl _) hNot
    · rw [hEq]
      exact ih.sublist (frames_pin_sublist _ f) (fun g hUnpin => absurd hUnpin (hNot g))
    · -- the frame was not in the list, and its unpin is later than all those before
      rcases ih with ⟨time, hLast, hOrder⟩
      have hNe : ∀ g ∈ (run calls).frames, g ≠ f := by
        rintro g hMem rfl
        rw [(hSound.pinned g).mpr hMem] at hPinned
        cases hPinned
      have hFrames : ((run calls).step (.unpin f)).frames = f :: (run calls).frames := by
        simp [hEq, unpin, hPinned, frames]
      rw [hFrames]
      refine ⟨Function.update time f calls.length, ?_, List.pairwise_cons.mpr ⟨?_, ?_⟩⟩
      · intro g hMem
        rcases List.mem_cons.mp hMem with rfl | hOld
        · rw [Function.update_self]
          refine ⟨unpins_concat.mpr (.inr ⟨rfl, rfl, hPinned⟩), ?_⟩
          intro j hUnpins
          exact Nat.le_of_lt_succ (by simpa using hUnpins.lt)
        · rw [Function.update_of_ne (hNe g hOld)]
          refine (hLast g hOld).concat ?_
          rintro ⟨⟩
          exact absurd rfl (hNe f hOld)
      · intro g hOld
        rw [Function.update_self, Function.update_of_ne (hNe g hOld)]
        exact (hLast g hOld).1.lt
      · refine hOrder.imp_of_mem ?_
        intro g g' hG hG' hLt
        rwa [Function.update_of_ne (hNe g hG), Function.update_of_ne (hNe g' hG')]

/- After every sequence of calls the list, the hash and the
  flags agree, `victim` fails exactly when all frames are
  pinned, and the frame that it returns was unpinned before
  all others of the list. -/
theorem lru_of_run (calls : List (ReplacerCall n)) :
    (run calls).Sound ∧
      ((run calls).victim = none ↔ ∀ f, (run calls).isPinned f = true) ∧
      ∀ f r', (run calls).victim = some (f, r') →
        f ∈ (run calls).frames ∧
        ∃ i, LastUnpin calls f i ∧
          ∀ g ∈ (run calls).frames, g ≠ f →
            ∃ j, LastUnpin calls g j ∧ i < j := by
  have hSound := sound_run calls
  refine ⟨hSound, victim_eq_none_iff hSound, ?_⟩
  intro f r' hVictim
  rcases List.eq_nil_or_concat' (run calls).lruList with hNil | ⟨rest, node, hList⟩
  · simp [victim, hNil] at hVictim
  · rw [victim_eq hSound hList, Option.some.injEq, Prod.mk.injEq] at hVictim
    rcases hVictim with ⟨rfl, -⟩
    have hFrames : (run calls).frames = rest.map LRUNode.frame ++ [node.frame] := by
      simp [frames, hList]
    rcases recent_run calls with ⟨time, hLast, hOrder⟩
    rw [hFrames] at hLast hOrder ⊢
    refine ⟨by simp, time node.frame, hLast _ (by simp), ?_⟩
    intro g hMem hNe
    refine ⟨time g, hLast g hMem, ?_⟩
    rcases List.mem_append.mp hMem with hRest | hEnd
    · exact (List.pairwise_append.mp hOrder).2.2 g hRest node.frame (by simp)
    · exact absurd (List.mem_singleton.mp hEnd) hNe

end LRUReplacer

end Rmdb
