/-
# `RedisCore.Lib.LittleEndian` — integers and tables of integers in memory

An integer of `k` bytes is stored with its lowest byte first, a negative one in two's
complement.  A table is integers of one width, one after the other; it is known from its
cells, and the cells of a table can be spliced like those of a list.
-/
import RedisCore.Lib.Splice
import Mathlib.Algebra.Ring.Int.Defs
import Mathlib.Algebra.Ring.Nat

namespace LittleEndian

open Splice

/-- The lowest `k` bytes of a number, lowest first. -/
def encodeNat : Nat → Nat → List UInt8
  | 0, _ => []
  | k + 1, n => UInt8.ofNat n :: encodeNat k (n / 256)

/-- The number that bytes, lowest first, stand for. -/
def decodeNat : List UInt8 → Nat
  | [] => 0
  | b :: bs => b.toNat + 256 * decodeNat bs

/-- An integer in `k` bytes. -/
def encode (k : Nat) (v : Int) : List UInt8 := encodeNat k (v % 256 ^ k).toNat

/-- The signed integer that bytes stand for. -/
def decode (bs : List UInt8) : Int := Int.bmod (decodeNat bs) (256 ^ bs.length)

@[simp] theorem length_encodeNat (k n : Nat) : (encodeNat k n).length = k := by
  induction k generalizing n with
  | zero => rfl
  | succ k ih => rw [encodeNat, List.length_cons, ih]

@[simp] theorem length_encode (k : Nat) (v : Int) : (encode k v).length = k := length_encodeNat _ _

theorem decodeNat_encodeNat (k n : Nat) : decodeNat (encodeNat k n) = n % 256 ^ k := by
  induction k generalizing n with
  | zero => simp [encodeNat, decodeNat, Nat.mod_one]
  | succ k ih =>
      have hbyte : (UInt8.ofNat n).toNat = n % 256 := rfl
      rw [encodeNat, decodeNat, ih, hbyte, Nat.pow_succ, Nat.mul_comm (256 ^ k) 256, Nat.mod_mul]

/-- What `k` bytes hold is read back. -/
theorem decode_encode {k : Nat} {v : Int} (h₁ : -(256 ^ k) ≤ 2 * v) (h₂ : 2 * v < 256 ^ k) :
    decode (encode k v) = v := by
  have hpos : (0 : Int) < 256 ^ k := Int.pow_pos (by decide)
  have hmod : 0 ≤ v % 256 ^ k := Int.emod_nonneg _ (by omega)
  have hcast : ((256 ^ k : Nat) : Int) = 256 ^ k := by push_cast; rfl
  unfold decode encode
  rw [length_encodeNat, decodeNat_encodeNat, Int.natCast_emod, Int.emod_bmod,
    Int.toNat_of_nonneg hmod, ← hcast, Int.emod_bmod]
  exact Int.bmod_eq_of_le (by omega) (by omega)

/-- Integers one after the other. -/
def table (k : Nat) (vs : List Int) : List UInt8 := vs.flatMap (encode k)

@[simp] theorem table_nil (k : Nat) : table k [] = [] := rfl

@[simp] theorem table_append (k : Nat) (vs ws : List Int) :
    table k (vs ++ ws) = table k vs ++ table k ws := List.flatMap_append

@[simp] theorem table_cons (k : Nat) (v : Int) (vs : List Int) :
    table k (v :: vs) = encode k v ++ table k vs := rfl

@[simp] theorem length_table (k : Nat) (vs : List Int) : (table k vs).length = vs.length * k := by
  induction vs with
  | nil => simp
  | cons v vs ih =>
      rw [table_cons, List.length_append, length_encode, ih, List.length_cons, Nat.succ_mul]
      omega

/-- A cell of a table. -/
theorem slice_table {k i : Nat} {v : Int} {vs : List Int} (h : vs[i]? = some v) :
    slice (table k vs) (i * k) k = encode k v := by
  obtain ⟨hi, hv⟩ := List.getElem?_eq_some_iff.mp h
  have hsplit : vs = vs.take i ++ v :: vs.drop (i + 1) := by
    rw [← hv, List.getElem_cons_drop, List.take_append_drop]
  have hlen : (table k (vs.take i)).length = i * k := by
    rw [length_table, List.length_take, Nat.min_eq_left (by omega)]
  have hmid := @slice_middle _ (table k (vs.take i)) (encode k v) (table k (vs.drop (i + 1)))
  rw [hlen, length_encode, List.append_assoc, ← table_cons, ← table_append, ← hsplit] at hmid
  exact hmid

/-- Memory with the cells of a table is the table. -/
theorem eq_table {k : Nat} : ∀ {vs : List Int} {l : List UInt8}, l.length = vs.length * k →
    (∀ i v, vs[i]? = some v → slice l (i * k) k = encode k v) → l = table k vs := by
  intro vs
  induction vs with
  | nil =>
      intro l hlen _
      rw [List.length_nil, Nat.zero_mul] at hlen
      rw [List.length_eq_zero_iff.mp hlen]
      rfl
  | cons v vs ih =>
      intro l hlen hcells
      rw [List.length_cons, Nat.succ_mul] at hlen
      have hhead : l.take k = encode k v := by
        have := hcells 0 v rfl
        rwa [Nat.zero_mul, slice, List.drop_zero] at this
      have htail : l.drop k = table k vs := by
        refine ih (by rw [List.length_drop]; omega) (fun i w hw => ?_)
        have := hcells (i + 1) w hw
        rw [slice, Nat.succ_mul] at this
        rw [slice, List.drop_drop, Nat.add_comm k]
        exact this
      rw [table_cons, ← hhead, ← htail, List.take_append_drop]

end LittleEndian
