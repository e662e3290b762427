import Mathlib.Data.List.Range
import Mathlib.Data.Nat.Bitwise
import Mathlib.Tactic.Ring

/-!
# Little-endian numbers and circular buffers

`bytesLE w n` writes a number in `w` bytes, least significant first, and `ofBytesLE` reads it
back. `window data cap start len` is what a reader sees in a buffer of `cap` cells when it
takes `len` cells from the free-running position `start`; a copy in two pieces around the edge
gives the same cells (`window_eq_wrap`). `copyTo` is the buffer that a copy leaves behind.

A position counts on and is reduced when a cell is read. So positions can be added as numbers
(`window_add`), and it makes no difference if the counter itself wraps around, as long as it
does so at a multiple of the capacity (`window_mod`).
-/

namespace Bytes

/-! ### Numbers

Reading undoes writing for numbers that fit the width, and takes the remainder for others. -/

/-- The `w` low bytes of `n`, least significant first. -/
def bytesLE : Nat → Nat → List UInt8
  | 0, _ => []
  | w + 1, n => UInt8.ofNat n :: bytesLE w (n / 256)

/-- The number with the given bytes, least significant first. -/
def ofBytesLE : List UInt8 → Nat
  | [] => 0
  | b :: bs => b.toNat + 256 * ofBytesLE bs

@[simp] theorem length_bytesLE (w n : Nat) : (bytesLE w n).length = w := by
  induction w generalizing n with
  | zero => rfl
  | succ w ih => simp [bytesLE, ih]

/-- What is read back is the number up to the width. -/
theorem ofBytesLE_bytesLE (w n : Nat) : ofBytesLE (bytesLE w n) = n % 256 ^ w := by
  induction w generalizing n with
  | zero => simp [bytesLE, ofBytesLE, Nat.mod_one]
  | succ w ih =>
      have hmod : n % 256 ^ (w + 1) = n % 256 + 256 * (n / 256 % 256 ^ w) := by
        rw [Nat.pow_succ', Nat.mod_mul]
      rw [bytesLE, ofBytesLE, ih, UInt8.toNat_ofNat', hmod]

theorem ofBytesLE_bytesLE_of_lt {w n : Nat} (h : n < 256 ^ w) : ofBytesLE (bytesLE w n) = n := by
  rw [ofBytesLE_bytesLE, Nat.mod_eq_of_lt h]

/-- What is read fits the number of bytes. -/
theorem ofBytesLE_lt (bs : List UInt8) : ofBytesLE bs < 256 ^ bs.length := by
  induction bs with
  | nil => decide
  | cons b bs ih =>
      have hb := b.toNat_lt
      rw [ofBytesLE, List.length_cons, Nat.pow_succ']
      omega

/-- A wide number is the concatenation of its parts. -/
theorem bytesLE_add (v w n : Nat) : bytesLE (v + w) n = bytesLE v n ++ bytesLE w (n / 256 ^ v) := by
  induction v generalizing n with
  | zero => simp [bytesLE]
  | succ v ih =>
      rw [Nat.add_right_comm, bytesLE, bytesLE, ih, Nat.div_div_eq_div_mul, Nat.pow_succ']
      rfl

/-! ### Circular buffers

The reader's view of the buffer is the window; the copy that a program makes is up to two runs
over consecutive cells. -/

section Window

variable {α : Type} (data : Nat → α) (cap : Nat)

/-- The cells from the free-running position `start` on, around the edge. -/
def window (start len : Nat) : List α := (List.range len).map fun i => data ((start + i) % cap)

@[simp] theorem length_window (start len : Nat) : (window data cap start len).length = len := by
  simp [window]

/-- Reading on from where a read ended continues the window. -/
theorem window_add (start m n : Nat) :
    window data cap start (m + n) = window data cap start m ++ window data cap (start + m) n := by
  simp only [window, List.range_add, List.map_append, List.map_map, Function.comp_def, Nat.add_assoc]

/-- A position may wrap around at any multiple of the capacity. -/
theorem window_mod {M : Nat} (hM : cap ∣ M) (start len : Nat) :
    window data cap (start % M) len = window data cap start len := by
  refine List.map_congr_left fun i _ => ?_
  rw [Nat.add_mod, Nat.mod_mod_of_dvd _ hM, ← Nat.add_mod]

/-- A window that starts at the cell `pos` and is not longer than the buffer is the
piece up to the edge followed by the piece from the left edge. -/
theorem window_eq_wrap (start len : Nat) (hcap : 0 < cap) (hlen : len ≤ cap) :
    window data cap start len =
      (List.range (min (cap - start % cap) len)).map (fun i => data (start % cap + i)) ++
        (List.range (len - min (cap - start % cap) len)).map data := by
  have hpos : start % cap < cap := Nat.mod_lt _ hcap
  have hsplit : len = min (cap - start % cap) len + (len - min (cap - start % cap) len) := by omega
  conv_lhs => rw [hsplit]
  rw [window_add]
  congr 1
  · refine List.map_congr_left fun i hi => ?_
    have hi' : i < min (cap - start % cap) len := List.mem_range.mp hi
    rw [Nat.add_mod, Nat.mod_eq_of_lt (a := i) (by omega), Nat.mod_eq_of_lt (by omega)]
  · refine List.map_congr_left fun i hi => ?_
    have hi' := List.mem_range.mp hi
    -- only reached when the first piece ends at the edge
    have hedge : min (cap - start % cap) len = cap - start % cap := by omega
    have hround : start + (cap - start % cap) = cap * (start / cap + 1) := by
      have hdiv := Nat.div_add_mod start cap
      rw [Nat.mul_succ]
      generalize cap * (start / cap) = q at hdiv ⊢
      omega
    rw [hedge] at hi' ⊢
    rw [hround, Nat.mul_add_mod, Nat.mod_eq_of_lt (by omega)]

end Window

/-! ### Copies

A copy into a buffer changes the cells from the offset on, as many as were copied. -/

section Copy

variable {α : Type}

/-- A buffer into which bytes were copied from the offset on. Cells before it and behind the
copy keep their values. -/
def copyTo (buf : Nat → α) (offset : Nat) (out : List α) : Nat → α := fun i =>
  if i < offset then buf i else (out[i - offset]?).getD (buf i)

@[simp] theorem copyTo_nil (buf : Nat → α) (offset : Nat) : copyTo buf offset [] = buf := by
  funext i
  simp [copyTo]

/-- Copies one behind the other are one copy. -/
theorem copyTo_append (buf : Nat → α) (offset : Nat) (xs ys : List α) :
    copyTo (copyTo buf offset xs) (offset + xs.length) ys = copyTo buf offset (xs ++ ys) := by
  funext i
  by_cases hoff : i < offset
  · rw [copyTo, if_pos (by omega), copyTo, if_pos hoff, copyTo, if_pos hoff]
  · by_cases hxs : i < offset + xs.length
    · rw [copyTo, if_pos hxs, copyTo, if_neg hoff, copyTo, if_neg hoff,
        List.getElem?_append_left (by omega)]
    · have hsub : i - (offset + xs.length) = i - offset - xs.length := by omega
      have hnone : xs[i - offset]? = none := List.getElem?_eq_none (by omega)
      rw [copyTo, if_neg hxs, copyTo, if_neg hoff, copyTo, if_neg hoff,
        List.getElem?_append_right (by omega), hnone, hsub]
      rfl

end Copy

end Bytes
