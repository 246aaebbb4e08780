import Mathlib.Data.List.Basic

/-
  A sequence of frames that are written one after the other
  and read from the front: reading stops at the first place
  where no frame starts.

  Key definitions include:
    * `Framing.scan`
    * `Framing.Reads`
    * `Framing.Torn`

  Key theorems include:
    * `Framing.scan_frames`
    * `Framing.scan_append`
    * `Framing.scan_whole`
    * `Framing.scan_take`
-/

namespace Framing

variable {B F : Type}

/- Read frames from the front. `next` gives the first frame
  and the number of bytes it takes; `fuel` bounds the number
  of frames. -/
def scan (next : List B → Option (F × Nat)) :
    Nat → List B → List F
| 0, _ => []
| fuel + 1, bytes =>
  match next bytes with
  | none => []
  | some (frame, n) => frame :: scan next fuel (bytes.drop n)

/- A frame is read back from its encoding, whatever follows. -/
def Reads
    (next : List B → Option (F × Nat))
    (enc : F → List B)
    (frame : F) :
    Prop :=
  enc frame ≠ [] ∧
    ∀ rest, next (enc frame ++ rest) =
      some (frame, (enc frame).length)

/- No frame is read from a part of an encoding. -/
def Torn
    (next : List B → Option (F × Nat))
    (enc : F → List B)
    (frame : F) :
    Prop :=
  ∀ n < (enc frame).length, next ((enc frame).take n) = none

section Frames

variable {next : List B → Option (F × Nat)}
variable {enc : F → List B}

/- Frames that are there are read in order. -/
theorem scan_frames
    (frames : List F)
    (fuel : Nat)
    (rest : List B)
    (hReads : ∀ f ∈ frames, Reads next enc f) :
    scan next (frames.length + fuel) (frames.flatMap enc ++ rest) =
      frames ++ scan next fuel rest := by
  induction frames with
  | nil => simp
  | cons f frames ih =>
    have hHead := (hReads f (by simp)).2 (frames.flatMap enc ++ rest)
    have hTail := ih (fun g hG => hReads g (List.mem_cons_of_mem f hG))
    have hFuel : (f :: frames).length + fuel = (frames.length + fuel) + 1 := by
      simp only [List.length_cons]
      omega
    rw [hFuel, List.flatMap_cons, List.append_assoc, scan, hHead]
    simp only [List.drop_left, hTail, List.cons_append]

theorem length_le_flatMap (frames : List F)
    (hReads : ∀ f ∈ frames, Reads next enc f) :
    frames.length ≤ (frames.flatMap enc).length := by
  induction frames with
  | nil => simp
  | cons f frames ih =>
    have hHead := List.length_pos_of_ne_nil (hReads f (by simp)).1
    have hTail := ih (fun g hG => hReads g (List.mem_cons_of_mem f hG))
    simp only [List.length_cons, List.flatMap_cons, List.length_append]
    omega

/- Enough fuel: one unit for every byte. -/
theorem scan_append
    (frames : List F)
    (rest : List B)
    (hReads : ∀ f ∈ frames, Reads next enc f) :
    ∃ more, scan next ((frames.flatMap enc ++ rest).length + 1)
        (frames.flatMap enc ++ rest) =
        frames ++ more := by
  have hLe := length_le_flatMap frames hReads
  rw [List.length_append]
  have hEnough : frames.length ≤ (frames.flatMap enc).length + rest.length + 1 := by omega
  rcases Nat.exists_eq_add_of_le hEnough with ⟨fuel, hFuel⟩
  exact ⟨_, hFuel ▸ scan_frames frames fuel rest hReads⟩

theorem scan_whole
    (frames : List F)
    (hReads : ∀ f ∈ frames, Reads next enc f)
    (hEmpty : next [] = none) :
    scan next ((frames.flatMap enc).length + 1) (frames.flatMap enc) =
      frames := by
  have hLe := length_le_flatMap frames hReads
  rcases Nat.exists_eq_add_of_le hLe with ⟨fuel, hFuel⟩
  have hScan := scan_frames frames (fuel + 1) [] hReads
  rw [List.append_nil, scan, hEmpty] at hScan
  rw [hFuel, Nat.add_assoc, hScan, List.append_nil]

/- The frames are cut at a byte. Those that end by the cut are
  read, and no others. -/
theorem scan_take
    (frames : List F)
    (hReads : ∀ f ∈ frames, Reads next enc f)
    (hTorn : ∀ f ∈ frames, Torn next enc f)
    (hEmpty : next [] = none)
    (n fuel : Nat)
    (hFuel : ((frames.flatMap enc).take n).length < fuel) :
    ∃ k ≤ frames.length, scan next fuel ((frames.flatMap enc).take n) =
      frames.take k ∧
      ((frames.take k).flatMap enc).length ≤ n ∧ (k < frames.length →
        n < ((frames.take (k + 1)).flatMap enc).length) := by
  induction frames generalizing n fuel with
  | nil =>
    refine ⟨0, Nat.le_refl _, ?_, by simp, by simp⟩
    cases fuel with
    | zero => rfl
    | succ fuel => simp [scan, hEmpty]
  | cons f frames ih =>
    obtain ⟨fuel, rfl⟩ : ∃ m, fuel = m + 1 := ⟨fuel - 1, by omega⟩
    have hHead := hReads f (by simp)
    by_cases hCut : n < (enc f).length
    · -- the cut is in the first frame
      refine ⟨0, Nat.zero_le _, ?_, by simp, ?_⟩
      · rw [List.flatMap_cons, List.take_append_of_le_length (Nat.le_of_lt hCut), scan,
          hTorn f (by simp) n hCut]
        rfl
      · intro _
        simpa using hCut
    · have hSplit : ((f :: frames).flatMap enc).take n = enc f ++ (frames.flatMap enc).take
            (n - (enc f).length) := by
        rw [List.flatMap_cons, List.take_append, List.take_of_length_le (Nat.not_lt.mp hCut)]
      have hPos := List.length_pos_of_ne_nil hHead.1
      rw [hSplit, List.length_append] at hFuel
      rcases ih (fun g hG => hReads g (by simp [hG])) (fun g hG => hTorn g (by simp [hG]))
        (n - (enc f).length) fuel (by omega) with
        ⟨k, hK, hScan, hLe, hLt⟩
      refine ⟨k + 1, by simpa using hK, ?_, ?_, ?_⟩
      · rw [hSplit, scan, hHead.2]
        simp only [List.drop_left, hScan, List.take_succ_cons]
      · rw [List.take_succ_cons, List.flatMap_cons, List.length_append]
        omega
      · intro hMore
        have hNext := hLt (by simpa using hMore)
        rw [List.take_succ_cons, List.flatMap_cons, List.length_append]
        omega

end Frames

end Framing
