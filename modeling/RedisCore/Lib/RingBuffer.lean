/-
# `RedisCore.Lib.RingBuffer` — a circular buffer that keeps the end of a history

The buffer has room for the last cells of a history that only grows.  `slot` says where
the cell `back` places before the next write is; `Holds` says that the last `len` cells of
the history are where `slot` says.  A write of a chunk that does not cross the end of the
buffer keeps it, and a slice that does not cross the end is a slice of the history.
-/
import RedisCore.Lib.Splice

namespace RingBuffer

open Splice

variable {α : Type}

/-- The place in a buffer of size `n` of the cell `back` places before `idx`. -/
def slot (n idx back : Nat) : Nat := (idx + n - back) % n

/-- The last `len` cells of `hist` are in the buffer, the next write going to `idx`. -/
structure Holds (buf : List α) (idx len : Nat) (hist : List α) : Prop where
  lenLe : len ≤ buf.length
  histLe : len ≤ hist.length
  cells : ∀ back, 0 < back → back ≤ len →
    buf[slot buf.length idx back]? = hist[hist.length - back]?

variable {buf hist : List α} {n idx len back k : Nat}

theorem slot_lt (hn : 0 < n) : slot n idx back < n := Nat.mod_lt _ hn

/-- Further on in the history is further on in the buffer, up to its end. -/
theorem slot_advance (hb : back ≤ n) (hk : k ≤ back) :
    slot n idx (back - k) = (slot n idx back + k) % n := by
  unfold slot
  rw [Nat.mod_add_mod]
  congr 1
  omega

theorem slot_add (hb : back ≤ n) (hk : k ≤ back) (h : slot n idx back + k < n) :
    slot n idx (back - k) = slot n idx back + k := by
  rw [slot_advance hb hk, Nat.mod_eq_of_lt h]

theorem Holds.empty (buf : List α) (hist : List α) : Holds buf idx 0 hist where
  lenLe := Nat.zero_le _
  histLe := Nat.zero_le _
  cells := by
    intro back h₁ h₂
    omega

/-- What is kept of less is kept. -/
theorem Holds.shorter {len' : Nat} (h : Holds buf idx len hist) (hl : len' ≤ len) :
    Holds buf idx len' hist where
  lenLe := Nat.le_trans hl h.lenLe
  histLe := Nat.le_trans hl h.histLe
  cells := fun back h₁ h₂ => h.cells back h₁ (Nat.le_trans h₂ hl)

/-- A slice of the buffer that does not cross its end is a slice of the history. -/
theorem Holds.slice (h : Holds buf idx len hist) (hb : back ≤ len) (hk : k ≤ back)
    (hend : slot buf.length idx back + k ≤ buf.length) :
    (buf.drop (slot buf.length idx back)).take k = (hist.drop (hist.length - back)).take k := by
  have hlen := h.lenLe
  have hhist := h.histLe
  apply List.ext_getElem?
  intro i
  by_cases hi : i < k
  · have hslot : slot buf.length idx (back - i) = slot buf.length idx back + i :=
      slot_add (by omega) (by omega) (by omega)
    have hcell := h.cells (back - i) (by omega) (by omega)
    rw [hslot] at hcell
    rw [List.getElem?_take_of_lt hi, List.getElem?_take_of_lt hi, List.getElem?_drop,
      List.getElem?_drop, hcell]
    congr 1
    omega
  · rw [List.getElem?_take_eq_none (by omega), List.getElem?_take_eq_none (by omega)]

/-- A chunk written at `idx` is the new end of the history. -/
theorem Holds.write {chunk : List α} (h : Holds buf idx len hist) (hidx : idx < buf.length)
    (hend : idx + chunk.length ≤ buf.length) :
    Holds (overwrite buf idx chunk) ((idx + chunk.length) % buf.length)
      (min buf.length (len + chunk.length)) (hist ++ chunk) where
  lenLe := by
    rw [length_overwrite hend]
    exact Nat.min_le_left _ _
  histLe := by
    have := h.histLe
    rw [List.length_append]
    omega
  cells := by
    have hlen := h.lenLe
    have hhist := h.histLe
    intro back h₁ h₂
    rw [length_overwrite hend, List.length_append, getElem?_overwrite hend]
    have hslot : slot buf.length ((idx + chunk.length) % buf.length) back =
        (idx + chunk.length + (buf.length - back)) % buf.length := by
      unfold slot
      rw [Nat.add_sub_assoc (by omega), Nat.mod_add_mod]
    rw [hslot]
    by_cases hnew : back ≤ chunk.length
    · -- the cell is in the chunk
      have hpos : (idx + chunk.length + (buf.length - back)) % buf.length =
          idx + (chunk.length - back) := by
        rw [show idx + chunk.length + (buf.length - back) =
          idx + (chunk.length - back) + buf.length by omega, Nat.add_mod_right,
          Nat.mod_eq_of_lt (by omega)]
      rw [hpos, if_neg (by omega), if_pos (by omega), List.getElem?_append_right (by omega)]
      congr 1
      omega
    · -- the cell was there before, and the chunk is not written over it
      have hold := h.cells (back - chunk.length) (by omega) (by omega)
      rw [List.getElem?_append_left (by omega),
        show hist.length + chunk.length - back = hist.length - (back - chunk.length) by omega,
        ← hold]
      have hsame : slot buf.length idx (back - chunk.length) =
          (idx + chunk.length + (buf.length - back)) % buf.length := by
        unfold slot
        congr 1
        omega
      rw [hsame]
      have hout : (idx + chunk.length + (buf.length - back)) % buf.length < idx ∨
          idx + chunk.length ≤ (idx + chunk.length + (buf.length - back)) % buf.length := by
        by_cases hw : back - chunk.length ≤ idx
        · left
          rw [show idx + chunk.length + (buf.length - back) =
            idx - (back - chunk.length) + buf.length by omega, Nat.add_mod_right,
            Nat.mod_eq_of_lt (by omega)]
          omega
        · right
          rw [Nat.mod_eq_of_lt (by omega)]
          omega
      rcases hout with hout | hout
      · rw [if_pos hout]
      · rw [if_neg (by omega), if_neg (by omega)]

end RingBuffer
