import Mathlib.Order.Defs.LinearOrder
import Rmdb.Lib.LittleEndian

/-
  This file models `ix_compare`, the order of the keys of an
  index.

  A key is the bytes of its columns one after the other.  An
  INT column is a little-endian number, a CHAR column is
  compared byte by byte.  FLOAT columns are left out.

  Key definitions include:
    * `IxCol`
    * `ixCompare`
    * `IxKey`

  Key theorems include:
    * `ordered_ixCompare`
-/

namespace Rmdb

open List

------------
-- Comparisons
------------

/- A column of an index. -/
inductive IxCol where
| int
| string (len : Nat)
deriving DecidableEq, Repr

def IxCol.len : IxCol → Nat
| int => 4
| string len => len

/- `col_tot_len`. -/
def colTotLen (cols : List IxCol) : Nat :=
  (cols.map IxCol.len).sum

/- The first byte that differs decides. -/
def memcmp : List UInt8 → List UInt8 → Int
| a :: as, b :: bs =>
  if a < b then -1
  else if b < a then 1
  else memcmp as bs
| _, _ => 0

def compareInt (a b : Int) : Int :=
  if a < b then -1 else if b < a then 1 else 0

def IxCol.compare (col : IxCol) (a b : List UInt8) : Int :=
  match col with
  | int =>
    compareInt (LittleEndian.decodeInt a)
      (LittleEndian.decodeInt b)
  | string _ => memcmp a b

/- The first column that differs decides. -/
def ixCompare :
    List IxCol → List UInt8 → List UInt8 → Int
| [], _, _ => 0
| col :: cols, a, b =>
  let res := col.compare (a.take col.len) (b.take col.len)
  if res ≠ 0 then
    res
  else
    ixCompare cols (a.drop col.len) (b.drop col.len)

------------
-- Order
------------

/- A comparison of byte strings of one length is an order. -/
structure Ordered
    (n : Nat)
    (cmp : List UInt8 → List UInt8 → Int) :
    Prop where
  eq : ∀ a b, a.length = n → b.length = n → (cmp a b = 0 ↔ a = b)
  swap : ∀ a b, a.length = n → b.length = n → (cmp a b < 0 ↔ 0 < cmp b a)
  trans : ∀ a b c, a.length = n → b.length = n → c.length = n →
      cmp a b < 0 → cmp b c < 0 → cmp a c < 0

theorem compareInt_lt {a b : Int} : compareInt a b < 0 ↔ a < b := by
  unfold compareInt
  split
  · simp [*]
  · split <;> simp [*]

theorem compareInt_gt {a b : Int} : 0 < compareInt a b ↔ b < a := by
  unfold compareInt
  split
  · omega
  · split <;> simp [*]

theorem compareInt_eq {a b : Int} : compareInt a b = 0 ↔ a = b := by
  have hLess := compareInt_lt (a := a) (b := b)
  have hMore := compareInt_gt (a := a) (b := b)
  omega

variable {n : Nat} {cmp cmp' : List UInt8 → List UInt8 → Int}

theorem Ordered.congr (hOrdered : Ordered n cmp)
    (hCmp : ∀ a b, a.length = n → b.length = n → cmp' a b = cmp a b) :
    Ordered n cmp' := by
  constructor
  · intro a b hA hB
    rw [hCmp a b hA hB]
    exact hOrdered.eq a b hA hB
  · intro a b hA hB
    rw [hCmp a b hA hB, hCmp b a hB hA]
    exact hOrdered.swap a b hA hB
  · intro a b c hA hB hC
    rw [hCmp a b hA hB, hCmp b c hB hC, hCmp a c hA hC]
    exact hOrdered.trans a b c hA hB hC

/- Numbers that know their bytes. -/
theorem ordered_compareInt {value : List UInt8 → Int}
    (hValue : ∀ a b, a.length = n → b.length = n → value a = value b → a = b) :
    Ordered n (fun a b => compareInt (value a) (value b)) := by
  constructor
  · intro a b hA hB
    rw [compareInt_eq]
    constructor
    · exact hValue a b hA hB
    · rintro rfl
      rfl
  · intro a b _ _
    rw [compareInt_lt, compareInt_gt]
  · intro a b c _ _ _
    rw [compareInt_lt, compareInt_lt, compareInt_lt]
    exact lt_trans

/- One field after the other. -/
theorem Ordered.lex
    {m : Nat}
    (hFirst : Ordered m cmp)
    (hRest : Ordered n cmp') :
    Ordered (m + n) (fun a b =>
      if cmp (a.take m) (b.take m) ≠ 0 then
        cmp (a.take m) (b.take m)
      else
        cmp' (a.drop m) (b.drop m)) := by
  have hTake : ∀ a : List UInt8, a.length = m + n → (a.take m).length = m := by
    intro a hA
    rw [length_take]
    omega
  have hDrop : ∀ a : List UInt8, a.length = m + n → (a.drop m).length = n := by
    intro a hA
    rw [length_drop]
    omega
  have hJoin : ∀ a b : List UInt8, a.take m = b.take m → a.drop m = b.drop m → a = b := by
    intro a b hTakes hDrops
    rw [← take_append_drop m a, hTakes, hDrops, take_append_drop]
  constructor
  · intro a b hA hB
    have hEq := hFirst.eq _ _ (hTake a hA) (hTake b hB)
    have hEq' := hRest.eq _ _ (hDrop a hA) (hDrop b hB)
    constructor
    · intro hZero
      by_cases hNe : cmp (a.take m) (b.take m) ≠ 0
      · rw [if_pos hNe] at hZero
        exact absurd hZero hNe
      · rw [if_neg hNe] at hZero
        exact hJoin a b (hEq.mp (not_not.mp hNe)) (hEq'.mp hZero)
    · rintro rfl
      rw [if_neg (not_not.mpr (hEq.mpr rfl))]
      exact hEq'.mpr rfl
  · intro a b hA hB
    have hEq := hFirst.eq _ _ (hTake a hA) (hTake b hB)
    have hEq' := hFirst.eq _ _ (hTake b hB) (hTake a hA)
    have hSwap := hFirst.swap _ _ (hTake a hA) (hTake b hB)
    have hSwap' := hRest.swap _ _ (hDrop a hA) (hDrop b hB)
    by_cases hSame : a.take m = b.take m
    · rw [if_neg (not_not.mpr (hEq.mpr hSame)), if_neg (not_not.mpr (hEq'.mpr hSame.symm))]
      exact hSwap'
    · rw [if_pos (mt hEq.mp hSame), if_pos (mt hEq'.mp (Ne.symm hSame))]
      exact hSwap
  · intro a b c hA hB hC hAB hBC
    have hEqAB := hFirst.eq _ _ (hTake a hA) (hTake b hB)
    have hEqBC := hFirst.eq _ _ (hTake b hB) (hTake c hC)
    by_cases hSameAB : a.take m = b.take m
    · rw [if_neg (not_not.mpr (hEqAB.mpr hSameAB))] at hAB
      rw [hSameAB]
      by_cases hSameBC : b.take m = c.take m
      · rw [if_neg (not_not.mpr (hEqBC.mpr hSameBC))] at hBC ⊢
        exact hRest.trans _ _ _ (hDrop a hA) (hDrop b hB) (hDrop c hC) hAB hBC
      · rw [if_pos (mt hEqBC.mp hSameBC)] at hBC ⊢
        exact hBC
    · rw [if_pos (mt hEqAB.mp hSameAB)] at hAB
      have hLess : cmp (a.take m) (c.take m) < 0 := by
        by_cases hSameBC : b.take m = c.take m
        · rw [← hSameBC]
          exact hAB
        · rw [if_pos (mt hEqBC.mp hSameBC)] at hBC
          exact hFirst.trans _ _ _ (hTake a hA) (hTake b hB) (hTake c hC) hAB hBC
      rw [if_pos (by omega)]
      exact hLess

theorem ordered_memcmp (n : Nat) : Ordered n memcmp := by
  induction n with
  | zero =>
    have hNil : Ordered 0 (fun _ _ => compareInt 0 0) := ordered_compareInt (fun a b hA hB _ => by
        rw [length_eq_zero_iff.mp hA, length_eq_zero_iff.mp hB])
    refine hNil.congr ?_
    intro a b hA hB
    rw [length_eq_zero_iff.mp hA, length_eq_zero_iff.mp hB]
    rfl
  | succ n ih =>
    have hByte : Ordered 1 (fun a b =>
        compareInt (LittleEndian.decode a) (LittleEndian.decode b)) := by
      refine ordered_compareInt ?_
      intro a b hA hB hEq
      exact LittleEndian.decode_injective (by omega) (by exact_mod_cast hEq)
    have hLex := hByte.lex ih
    rw [Nat.add_comm] at hLex
    refine hLex.congr ?_
    intro a b hA hB
    rcases exists_cons_of_length_eq_add_one hA with ⟨x, as, rfl⟩
    rcases exists_cons_of_length_eq_add_one hB with ⟨y, bs, rfl⟩
    have hX : LittleEndian.decode (take 1 (x :: as)) =
        x.toNat := by
      simp [LittleEndian.decode]
    have hY : LittleEndian.decode (take 1 (y :: bs)) =
        y.toNat := by
      simp [LittleEndian.decode]
    rw [hX, hY, memcmp, drop_one, drop_one, tail_cons, tail_cons]
    unfold compareInt
    simp only [UInt8.lt_iff_toNat_lt, Int.ofNat_lt]
    split
    · simp
    · split
      · simp
      · simp

theorem ordered_compare (col : IxCol) : Ordered col.len col.compare := by
  cases col with
  | int =>
    refine ordered_compareInt ?_
    intro a b hA hB hEq
    exact LittleEndian.decodeInt_injective (hA.trans hB.symm) hEq
  | string len => exact ordered_memcmp len

/- The keys of an index are ordered, and equal as bytes only. -/
theorem ordered_ixCompare (cols : List IxCol) :
    Ordered (colTotLen cols) (ixCompare cols) := by
  induction cols with
  | nil => exact (ordered_memcmp 0).congr (fun a b hA hB => by
    rw [length_eq_zero_iff.mp hA, length_eq_zero_iff.mp hB]
    rfl)
  | cons col cols ih =>
    have hLen : colTotLen (col :: cols) = col.len + colTotLen cols := by simp [colTotLen]
    exact (ordered_compare col).lex ih

------------
-- Keys
------------

/- The bytes of a key of an index on some columns. -/
def IxKey (cols : List IxCol) : Type :=
  { bytes : List UInt8 // bytes.length = colTotLen cols }

namespace IxKey

variable {cols : List IxCol}

def compare (a b : IxKey cols) : Int :=
  ixCompare cols a.1 b.1

variable {a b : IxKey cols}

theorem compare_eq : a.compare b = 0 ↔ a = b :=
  ((ordered_ixCompare cols).eq a.1 b.1 a.2 b.2).trans Subtype.ext_iff.symm

theorem compare_swap : a.compare b < 0 ↔ 0 < b.compare a :=
  (ordered_ixCompare cols).swap a.1 b.1 a.2 b.2

theorem compare_trans {c : IxKey cols} :
    a.compare b < 0 → b.compare c < 0 → a.compare c < 0 :=
  (ordered_ixCompare cols).trans a.1 b.1 c.1 a.2 b.2 c.2

instance : LinearOrder (IxKey cols) where
  le a b := a.compare b ≤ 0
  lt a b := a.compare b < 0
  le_refl a := le_of_eq (compare_eq.mpr rfl)
  le_trans a b c hAB hBC := by
    rcases lt_or_eq_of_le hAB with hAB | hAB
    · rcases lt_or_eq_of_le hBC with hBC | hBC
      · exact le_of_lt (compare_trans hAB hBC)
      · rw [← compare_eq.mp hBC]
        exact le_of_lt hAB
    · rw [compare_eq.mp hAB]
      exact hBC
  lt_iff_le_not_ge a b := by
    have hSwap := compare_swap (a := a) (b := b)
    have hSwap' := compare_swap (a := b) (b := a)
    omega
  le_antisymm a b hAB hBA := by
    have hSwap := compare_swap (a := b) (b := a)
    refine compare_eq.mp ?_
    have hSwap' := compare_swap (a := a) (b := b)
    omega
  le_total a b := by
    have hSwap := compare_swap (a := a) (b := b)
    have hSwap' := compare_swap (a := b) (b := a)
    omega
  toDecidableLE a b := inferInstanceAs (Decidable (_ ≤ (0 : Int)))
  toDecidableLT a b := inferInstanceAs (Decidable (_ < (0 : Int)))
  toDecidableEq a b := decidable_of_iff _ compare_eq

end IxKey

end Rmdb
