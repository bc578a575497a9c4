/-
# `RedisCore.Intset` — sets of integers in one piece of memory (intset.c)

The elements are stored in increasing order, all in the width that the widest of them
needs.  An element that needs more makes the set wider: every element is copied to its
new place, from the last to the first because old and new places overlap.

The contents are the bytes that are allocated, and a read or write outside of them makes
the operation fail.  The platform is a little endian one.
-/
import RedisCore.Lib.CInt
import RedisCore.Lib.LittleEndian
import RedisCore.Util
import Mathlib.Data.Finset.Card

namespace RedisCore

namespace Intset

open CInt LittleEndian Splice

def INTSET_ENC_INT16 : Nat := 2
def INTSET_ENC_INT32 : Nat := 4
def INTSET_ENC_INT64 : Nat := 8

/-- `intset`; the two counts are `uint32_t`. -/
structure IntSet where
  encoding : Nat
  length : Nat
  contents : Bytes
  deriving DecidableEq

/-- The set with other bytes. -/
def IntSet.withContents (is : IntSet) (contents : Bytes) : IntSet :=
  { is with contents := contents }

/-- `_intsetValueEncoding`. -/
def intsetValueEncoding (v : Int) : Nat :=
  if v < -(2 ^ 31) ∨ v > 2 ^ 31 - 1 then INTSET_ENC_INT64
  else if v < -(2 ^ 15) ∨ v > 2 ^ 15 - 1 then INTSET_ENC_INT32
  else INTSET_ENC_INT16

/-- The integer of `width` bytes at an index. -/
def load (contents : Bytes) (pos : Int) (width : Nat) : Option Int :=
  if 0 ≤ pos ∧ pos.toNat * width + width ≤ contents.length then
    some (decode (slice contents (pos.toNat * width) width))
  else none

/-- Store an integer of `width` bytes at an index. -/
def store (contents : Bytes) (pos : Int) (width : Nat) (value : Int) : Option Bytes :=
  if 0 ≤ pos ∧ pos.toNat * width + width ≤ contents.length then
    some (overwrite contents (pos.toNat * width) (encode width value))
  else none

/-- `_intsetGetEncoded`. -/
def intsetGetEncoded (is : IntSet) (pos : Int) (enc : Nat) : Option Int :=
  if enc = INTSET_ENC_INT64 then load is.contents pos 8
  else if enc = INTSET_ENC_INT32 then load is.contents pos 4
  else load is.contents pos 2

/-- `_intsetGet`. -/
def intsetGetAt (is : IntSet) (pos : Int) : Option Int := intsetGetEncoded is pos is.encoding

/-- `_intsetSet`. -/
def intsetSet (is : IntSet) (pos : Int) (value : Int) : Option IntSet :=
  (if is.encoding = INTSET_ENC_INT64 then store is.contents pos 8 value
    else if is.encoding = INTSET_ENC_INT32 then store is.contents pos 4 value
    else store is.contents pos 2 value).map is.withContents

/-- `intsetNew`. -/
def intsetNew : IntSet := ⟨INTSET_ENC_INT16, 0, []⟩

/-- `intsetResize`; `mem` is what the memory has that `zrealloc` adds. -/
def intsetResize (is : IntSet) (mem : Nat → UInt8) (len : Nat) : IntSet :=
  let size := toUInt (len * is.encoding)
  { is with contents :=
      is.contents.take size ++ (List.range (size - is.contents.length)).map mem }

/-- The loop of `intsetSearch`: `min`, `mid` and `cur` at its end. -/
def searchLoop (is : IntSet) (value : Int) :
    Nat → Int → Int → Int → Int → Option (Int × Int × Int)
  | 0, _, _, _, _ => none
  | fuel + 1, min, max, mid, cur =>
      if max ≥ min then
        let mid : Int := toUInt (toUInt min + toUInt max) / 2
        match intsetGetAt is mid with
        | none => none
        | some cur =>
            if value > cur then searchLoop is value fuel (mid + 1) max mid cur
            else if value < cur then searchLoop is value fuel min (mid - 1) mid cur
            else some (min, mid, cur)
      else some (min, mid, cur)

/-- `intsetSearch`, with the position it sets. -/
def intsetSearch (is : IntSet) (value : Int) : Option (Bool × Nat) :=
  if is.length = 0 then some (false, 0)
  else
    match intsetGetAt is (toInt (is.length - 1)), intsetGetAt is 0 with
    | some last, some first =>
        if value > last then some (false, is.length)
        else if value < first then some (false, 0)
        else
          (searchLoop is value (is.length + 1) 0 (toInt (is.length - 1)) (-1) (-1)).map
            (fun r => if value = r.2.2 then (true, toUInt r.2.1) else (false, toUInt r.1))
    | _, _ => none

/-- The loop of `intsetUpgradeAndAdd`, over the elements below the given one. -/
def upgradeLoop (curenc : Nat) (prepend : Int) : Nat → IntSet → Option IntSet
  | 0, is => some is
  | length + 1, is =>
      match intsetGetEncoded is length curenc with
      | none => none
      | some v => (intsetSet is (length + prepend) v).bind (upgradeLoop curenc prepend length)

/-- `intsetUpgradeAndAdd`. -/
def intsetUpgradeAndAdd (is : IntSet) (mem : Nat → UInt8) (value : Int) : Option IntSet :=
  let curenc := is.encoding
  let length := toInt is.length
  let prepend := if value < 0 then 1 else 0
  let is := intsetResize { is with encoding := intsetValueEncoding value } mem
    (toUInt (is.length + 1))
  if length < 0 then none
  else
    (upgradeLoop curenc prepend length.toNat is).bind (fun is =>
      (intsetSet is (if value < 0 then 0 else toInt is.length) value).map (fun is =>
        { is with length := toUInt (is.length + 1) }))

/-- `memmove` within the contents. -/
def memmove (contents : Bytes) (dst src bytes : Nat) : Option Bytes :=
  if dst + bytes ≤ contents.length ∧ src + bytes ≤ contents.length then
    some (overwrite contents dst (slice contents src bytes))
  else none

/-- `intsetMoveTail`. -/
def intsetMoveTail (is : IntSet) (fromPos toPos : Nat) : Option IntSet :=
  let bytes := toUInt (is.length - fromPos)
  (if is.encoding = INTSET_ENC_INT64 then
      memmove is.contents (toPos * 8) (fromPos * 8) (toUInt (bytes * 8))
    else if is.encoding = INTSET_ENC_INT32 then
      memmove is.contents (toPos * 4) (fromPos * 4) (toUInt (bytes * 4))
    else memmove is.contents (toPos * 2) (fromPos * 2) (toUInt (bytes * 2))).map is.withContents

/-- `intsetAdd`, and whether it reports success. -/
def intsetAdd (is : IntSet) (mem : Nat → UInt8) (value : Int) : Option (IntSet × Bool) :=
  if intsetValueEncoding value > is.encoding then
    (intsetUpgradeAndAdd is mem value).map (·, true)
  else
    match intsetSearch is value with
    | none => none
    | some (true, _) => some (is, false)
    | some (false, pos) =>
        let is := intsetResize is mem (toUInt (is.length + 1))
        (if pos < is.length then intsetMoveTail is pos (toUInt (pos + 1)) else some is).bind
          (fun is =>
            (intsetSet is (toInt pos) value).map (fun is =>
              ({ is with length := toUInt (is.length + 1) }, true)))

/-- `intsetRemove`, and whether it reports success. -/
def intsetRemove (is : IntSet) (value : Int) : Option (IntSet × Bool) :=
  if intsetValueEncoding value ≤ is.encoding then
    match intsetSearch is value with
    | none => none
    | some (false, _) => some (is, false)
    | some (true, pos) =>
        let len := is.length
        (if pos < toUInt (len - 1) then intsetMoveTail is (toUInt (pos + 1)) pos else some is).map
          (fun is =>
            ({ intsetResize is (fun _ => 0) (toUInt (len - 1)) with length := toUInt (len - 1) },
              true))
  else some (is, false)

/-- `intsetFind`. -/
def intsetFind (is : IntSet) (value : Int) : Option Bool :=
  if intsetValueEncoding value ≤ is.encoding then (intsetSearch is value).map Prod.fst
  else some false

/-- `intsetGet`; `none` inside is the result 0. -/
def intsetGet (is : IntSet) (pos : Nat) : Option (Option Int) :=
  if pos < is.length then (intsetGetAt is (toInt pos)).map some else some none

/-! ## The representation -/

variable {is : IntSet} {values : List Int} {live : Finset Int} {v x : Int} {i : Nat}

/-- The widths there are. -/
def Width (k : Nat) : Prop := k = 2 ∨ k = 4 ∨ k = 8

/-- A value that a width holds. -/
def Fits (k : Nat) (v : Int) : Prop := -(256 ^ k) ≤ 2 * v ∧ 2 * v < 256 ^ k

/-- What is stored, in order. -/
structure Holds (is : IntSet) (values : List Int) : Prop where
  width : Width is.encoding
  length : is.length = values.length
  contents : is.contents = table is.encoding values
  fits : ∀ v ∈ values, Fits is.encoding v
  bound : values.length * 8 < 2 ^ 32

theorem width_valueEncoding (v : Int) : Width (intsetValueEncoding v) := by
  unfold intsetValueEncoding Width INTSET_ENC_INT16 INTSET_ENC_INT32 INTSET_ENC_INT64
  split
  · omega
  · split <;> omega

theorem Width.le_eight {k : Nat} (h : Width k) : k ≤ 8 := by
  unfold Width at h
  omega

theorem Width.pos {k : Nat} (h : Width k) : 0 < k := by
  unfold Width at h
  omega

theorem fits_iff {k : Nat} (hk : Width k) (value : Int64) :
    Fits k value.toInt ↔ intsetValueEncoding value.toInt ≤ k := by
  have h₁ := value.le_toInt
  have h₂ := value.toInt_lt
  unfold Fits intsetValueEncoding INTSET_ENC_INT16 INTSET_ENC_INT32 INTSET_ENC_INT64
  rcases hk with rfl | rfl | rfl
  all_goals
    norm_num
    split
    · omega
    · split <;> omega

theorem Fits.wider {k m : Nat} (h : Fits k v) (hkm : k ≤ m) : Fits m v := by
  have hpow : (256 : Int) ^ k ≤ 256 ^ m := pow_le_pow_right₀ (by norm_num) hkm
  exact ⟨by have := h.1; omega, by have := h.2; omega⟩

/-! ## Access -/

@[simp] theorem encoding_withContents (is : IntSet) (c : Bytes) :
    (is.withContents c).encoding = is.encoding := rfl

@[simp] theorem length_withContents (is : IntSet) (c : Bytes) :
    (is.withContents c).length = is.length := rfl

@[simp] theorem contents_withContents (is : IntSet) (c : Bytes) :
    (is.withContents c).contents = c := rfl

theorem intsetGetEncoded_eq {k : Nat} (hk : Width k) (pos : Int) :
    intsetGetEncoded is pos k = load is.contents pos k := by
  unfold intsetGetEncoded INTSET_ENC_INT64 INTSET_ENC_INT32
  rcases hk with rfl | rfl | rfl <;> rfl

theorem intsetSet_eq (hk : Width is.encoding) (pos value : Int) :
    intsetSet is pos value =
      (store is.contents pos is.encoding value).map is.withContents := by
  unfold intsetSet INTSET_ENC_INT64 INTSET_ENC_INT32
  rcases hk with hk | hk | hk <;> rw [hk] <;> rfl

theorem load_spec {contents : Bytes} {k : Nat} (hlen : i * k + k ≤ contents.length) (hfits : Fits k v)
    (h : slice contents (i * k) k = encode k v) : load contents i k = some v := by
  unfold load
  rw [Int.toNat_natCast, if_pos ⟨by omega, hlen⟩, h, decode_encode hfits.1 hfits.2]

theorem store_spec {contents : Bytes} {k : Nat} (hlen : i * k + k ≤ contents.length) (value : Int) :
    store contents i k value = some (overwrite contents (i * k) (encode k value)) := by
  unfold store
  rw [Int.toNat_natCast, if_pos ⟨by omega, hlen⟩]

/-- **`_intsetGet`** reads the value at an index. -/
theorem Holds.get (h : Holds is values) (hi : values[i]? = some v) :
    intsetGetAt is i = some v := by
  obtain ⟨hlt, hv⟩ := List.getElem?_eq_some_iff.mp hi
  rw [intsetGetAt, intsetGetEncoded_eq h.width]
  refine load_spec ?_ (h.fits v (by rw [← hv]; exact List.getElem_mem hlt)) ?_
  · rw [h.contents, length_table, ← Nat.succ_mul]
    exact Nat.mul_le_mul_right _ hlt
  · rw [h.contents]
    exact slice_table hi

/-! ## Search -/

/-- The index from which on the values are not less. -/
structure Split (values : List Int) (v : Int) (i : Nat) : Prop where
  le : i ≤ values.length
  below : ∀ x ∈ values.take i, x < v
  above : ∀ x ∈ values.drop i, v < x

/-- **The loop** finds the value, or the place where it belongs. -/
theorem searchLoop_spec (h : Holds is values) (hs : values.Pairwise (· < ·)) (v : Int) :
    ∀ (fuel : Nat) (min max mid cur : Int), 0 ≤ min → max < values.length → min ≤ max + 1 →
      max - min + 1 < fuel → (∀ (i : Nat) x, values[i]? = some x → i < min → x < v) →
      (∀ (i : Nat) x, values[i]? = some x → max < i → v < x) → (cur ≠ v ∨ min ≤ max) →
      ∃ min' mid' cur', searchLoop is v fuel min max mid cur = some (min', mid', cur') ∧
        ((cur' = v ∧ ∃ i : Nat, mid' = i ∧ values[i]? = some v) ∨
          (cur' ≠ v ∧ ∃ i : Nat, min' = i ∧ Split values v i)) := by
  have hbound := h.bound
  intro fuel
  induction fuel with
  | zero => intro min max mid cur _ _ _ hf; omega
  | succ fuel ih =>
      intro min max mid cur h0 hmax hmm hf hbelow habove hcur
      unfold searchLoop
      by_cases hloop : max ≥ min
      · rw [if_pos hloop]
        obtain ⟨m, hm⟩ : ∃ m : Nat, (toUInt (toUInt min + toUInt max) / 2 : Nat) = m := ⟨_, rfl⟩
        have hmid : min ≤ m ∧ (m : Int) ≤ max := by
          have h₁ : toUInt min = min.toNat := by
            have := @toUInt_eq min.toNat (by omega)
            rwa [Int.toNat_of_nonneg h0] at this
          have h₂ : toUInt max = max.toNat := by
            have := @toUInt_eq max.toNat (by omega)
            rwa [Int.toNat_of_nonneg (by omega)] at this
          have h₃ : toUInt ((min.toNat : Int) + (max.toNat : Int)) = min.toNat + max.toNat := by
            have := @toUInt_eq (min.toNat + max.toNat) (by omega)
            rwa [Int.natCast_add] at this
          rw [h₁, h₂, h₃] at hm
          omega
        obtain ⟨x, hx⟩ : ∃ x, values[m]? = some x := ⟨_, List.getElem?_eq_getElem (by omega)⟩
        have hlt : ∀ (i j : Nat) y z, values[i]? = some y → values[j]? = some z → i < j → y < z := by
          intro i j y z hy hz hij
          obtain ⟨hi, rfl⟩ := List.getElem?_eq_some_iff.mp hy
          obtain ⟨hj, rfl⟩ := List.getElem?_eq_some_iff.mp hz
          exact List.pairwise_iff_getElem.mp hs i j hi hj hij
        have hm' : ((toUInt (toUInt min + toUInt max) : Nat) : Int) / 2 = m := by omega
        simp only [hm', h.get hx]
        by_cases hgt : v > x
        · rw [if_pos hgt]
          refine ih (m + 1) max m x (by omega) hmax (by omega) (by omega) ?_ habove
            (Or.inl (by omega))
          intro i y hy hi
          rcases Nat.lt_or_ge i m with him | him
          · exact lt_trans (hlt i m y x hy hx him) hgt
          · have : i = m := by omega
            subst this
            rw [hx] at hy
            cases hy
            exact hgt
        · rw [if_neg hgt]
          by_cases hless : v < x
          · rw [if_pos hless]
            refine ih min (m - 1) m x h0 (by omega) (by omega) (by omega) hbelow ?_
              (Or.inl (by omega))
            intro i y hy hi
            rcases Nat.lt_or_ge m i with him | him
            · exact lt_trans hless (hlt m i x y hx hy him)
            · have : i = m := by omega
              subst this
              rw [hx] at hy
              cases hy
              exact hless
          · rw [if_neg hless]
            have heq : x = v := by omega
            subst heq
            exact ⟨min, m, x, rfl, Or.inl ⟨rfl, m, rfl, hx⟩⟩
      · rw [if_neg hloop]
        obtain ⟨k, rfl⟩ : ∃ k : Nat, min = k := ⟨min.toNat, (Int.toNat_of_nonneg h0).symm⟩
        refine ⟨k, mid, cur, rfl, Or.inr ⟨?_, k, rfl, by omega, ?_, ?_⟩⟩
        · rcases hcur with hcur | hcur
          · exact hcur
          · exact absurd hcur hloop
        · intro y hy
          obtain ⟨i, hi⟩ := List.mem_iff_getElem?.mp hy
          have hik : i < k := by
            have := (List.getElem?_eq_some_iff.mp hi).1
            rw [List.length_take] at this
            omega
          rw [List.getElem?_take_of_lt hik] at hi
          exact hbelow i y hi (by omega)
        · intro y hy
          obtain ⟨i, hi⟩ := List.mem_iff_getElem?.mp hy
          rw [List.getElem?_drop] at hi
          exact habove (k + i) y hi (by omega)

/-- **`intsetSearch`** finds the value, or the place where it belongs. -/
theorem intsetSearch_spec (h : Holds is values) (hs : values.Pairwise (· < ·)) (v : Int) :
    (∃ i, intsetSearch is v = some (true, i) ∧ values[i]? = some v) ∨
      ∃ i, intsetSearch is v = some (false, i) ∧ Split values v i := by
  have hbound := h.bound
  have hlength := h.length
  unfold intsetSearch
  by_cases hz : is.length = 0
  · rw [if_pos hz]
    have hnil : values = [] := List.length_eq_zero_iff.mp (by omega)
    subst hnil
    exact Or.inr ⟨0, rfl, by simp, by simp, by simp⟩
  · rw [if_neg hz]
    have hlast : toInt ((is.length : Int) - 1) = ((values.length - 1 : Nat) : Int) := by
      rw [toInt_eq (by omega) (by omega)]
      omega
    obtain ⟨last, hl⟩ : ∃ x, values[values.length - 1]? = some x :=
      ⟨_, List.getElem?_eq_getElem (by omega)⟩
    obtain ⟨first, hf⟩ : ∃ x, values[0]? = some x := ⟨_, List.getElem?_eq_getElem (by omega)⟩
    have hget0 : intsetGetAt is 0 = some first := h.get (i := 0) hf
    have hle : ∀ (i j : Nat) y z, values[i]? = some y → values[j]? = some z → i ≤ j → y ≤ z := by
      intro i j y z hy hz hij
      obtain ⟨hi, rfl⟩ := List.getElem?_eq_some_iff.mp hy
      obtain ⟨hj, rfl⟩ := List.getElem?_eq_some_iff.mp hz
      rcases Nat.lt_or_eq_of_le hij with hij | rfl
      · exact le_of_lt (List.pairwise_iff_getElem.mp hs i j hi hj hij)
      · exact le_refl _
    rw [hlast, h.get hl, hget0]
    simp only
    by_cases hgt : v > last
    · rw [if_pos hgt]
      refine Or.inr ⟨is.length, rfl, by omega, ?_, ?_⟩
      · intro y hy
        obtain ⟨i, hi⟩ := List.mem_iff_getElem?.mp (List.mem_of_mem_take hy)
        have hil := (List.getElem?_eq_some_iff.mp hi).1
        exact lt_of_le_of_lt (hle i (values.length - 1) y last hi hl (by omega)) hgt
      · intro y hy
        rw [List.drop_eq_nil_of_le (by omega)] at hy
        exact absurd hy (by simp)
    · rw [if_neg hgt]
      by_cases hless : v < first
      · rw [if_pos hless]
        refine Or.inr ⟨0, rfl, by omega, by simp, ?_⟩
        intro y hy
        obtain ⟨i, hi⟩ := List.mem_iff_getElem?.mp hy
        rw [List.drop_zero] at hi
        exact lt_of_lt_of_le hless (hle 0 i first y hf hi (Nat.zero_le i))
      · rw [if_neg hless]
        obtain ⟨min', mid', cur', heq, hres⟩ := searchLoop_spec h hs v (is.length + 1) 0
          ((values.length - 1 : Nat) : Int) (-1) (-1) (by omega) (by omega) (by omega) (by omega)
          (by intro i x _ hi; omega)
          (by
            intro i x hx hi
            have := (List.getElem?_eq_some_iff.mp hx).1
            omega)
          (Or.inr (by omega))
        rw [heq, Option.map_some]
        rcases hres with ⟨rfl, i, rfl, hi⟩ | ⟨hne, i, rfl, hsplit⟩
        · have hil := (List.getElem?_eq_some_iff.mp hi).1
          left
          refine ⟨i, ?_, hi⟩
          simp only [if_true]
          rw [toUInt_eq (by omega)]
        · right
          have hle' := hsplit.le
          refine ⟨i, ?_, hsplit⟩
          simp only
          rw [if_neg (Ne.symm hne), toUInt_eq (by omega)]

/-! ## Insertion and removal in place -/

theorem intsetMoveTail_eq (hk : Width is.encoding) (fromPos toPos : Nat) :
    intsetMoveTail is fromPos toPos =
      (memmove is.contents (toPos * is.encoding) (fromPos * is.encoding)
        (toUInt ((toUInt (is.length - fromPos) : Int) * is.encoding))).map is.withContents := by
  unfold intsetMoveTail INTSET_ENC_INT64 INTSET_ENC_INT32
  rcases hk with hk | hk | hk <;> rw [hk] <;> rfl

/-- What `intsetMoveTail` does to a set with room for it. -/
theorem intsetMoveTail_spec (hk : Width is.encoding) (hlen : is.length * 8 < 2 ^ 32)
    {fromPos toPos : Nat} (hpos : fromPos ≤ is.length)
    (hroom : (toPos + (is.length - fromPos)) * is.encoding ≤ is.contents.length)
    (hsrc : is.length * is.encoding ≤ is.contents.length) :
    intsetMoveTail is fromPos toPos = some (is.withContents
      (overwrite is.contents (toPos * is.encoding)
        (slice is.contents (fromPos * is.encoding) ((is.length - fromPos) * is.encoding)))) := by
  have hk8 := hk.le_eight
  have h₁ : toUInt ((is.length : Int) - fromPos) = is.length - fromPos := by
    have := @toUInt_eq (is.length - fromPos) (by omega)
    rwa [Int.natCast_sub hpos] at this
  have hmul : (is.length - fromPos) * is.encoding ≤ is.length * 8 :=
    Nat.mul_le_mul (Nat.sub_le _ _) hk8
  have h₂ : toUInt (((is.length - fromPos : Nat) : Int) * is.encoding) =
      (is.length - fromPos) * is.encoding := by
    have := @toUInt_eq ((is.length - fromPos) * is.encoding) (by omega)
    rwa [Int.natCast_mul] at this
  rw [intsetMoveTail_eq hk, h₁, h₂, memmove, if_pos]
  · rfl
  · constructor
    · rw [← Nat.add_mul]
      exact hroom
    · rw [← Nat.add_mul, Nat.add_sub_cancel' hpos]
      exact hsrc

theorem intsetResize_grow (mem : Nat → UInt8) {len : Nat} (h : len * is.encoding < 2 ^ 32)
    (hle : is.contents.length ≤ len * is.encoding) :
    ∃ rest, rest.length = len * is.encoding - is.contents.length ∧
      intsetResize is mem len = is.withContents (is.contents ++ rest) := by
  have hsize : toUInt ((len : Int) * is.encoding) = len * is.encoding := by
    have := @toUInt_eq (len * is.encoding) h
    rwa [Int.natCast_mul] at this
  refine ⟨(List.range (len * is.encoding - is.contents.length)).map mem, by simp, ?_⟩
  unfold intsetResize
  simp only [hsize, List.take_of_length_le hle, IntSet.withContents]

theorem table_split (k : Nat) (values : List Int) (i : Nat) :
    table k values = table k (values.take i) ++ table k (values.drop i) := by
  rw [← table_append, List.take_append_drop]

/-- A sorted list with one value more. -/
theorem Split.sorted (h : Split values v i) (hs : values.Pairwise (· < ·)) :
    (values.take i ++ v :: values.drop i).Pairwise (· < ·) := by
  rw [← List.take_append_drop i values, List.pairwise_append] at hs
  refine List.pairwise_append.mpr ⟨hs.1, List.pairwise_cons.mpr ⟨h.above, hs.2.1⟩, ?_⟩
  intro a ha b hb
  rcases List.mem_cons.mp hb with rfl | hb
  · exact h.below a ha
  · exact hs.2.2 a ha b hb

/-- **`intsetAdd`** of a value that the width holds and that is not there. -/
theorem intsetAdd_place (h : Holds is values) (mem : Nat → UInt8) (hsplit : Split values v i)
    (hsearch : intsetSearch is v = some (false, i)) (hv : intsetValueEncoding v ≤ is.encoding)
    (hfits : Fits is.encoding v) (hbound : (values.length + 1) * 8 < 2 ^ 32) :
    ∃ is', intsetAdd is mem v = some (is', true) ∧
      Holds is' (values.take i ++ v :: values.drop i) ∧ is'.encoding = is.encoding := by
  have hk := h.width
  have hk8 := hk.le_eight
  have hlen := h.length
  have hile := hsplit.le
  obtain ⟨k, hkeq⟩ : ∃ k, k = is.encoding := ⟨_, rfl⟩
  rw [← hkeq] at hk hk8 hfits
  have hmul : (values.length + 1) * k ≤ (values.length + 1) * 8 := Nat.mul_le_mul_left _ hk8
  have hclen : is.contents.length = values.length * k := by
    rw [h.contents, length_table, hkeq]
  have hl1 : toUInt ((is.length : Int) + 1) = values.length + 1 := by
    have := @toUInt_eq (values.length + 1) (by omega)
    rw [hlen]
    exact this
  obtain ⟨rest, hrest, hresize⟩ := @intsetResize_grow is mem (values.length + 1)
    (by rw [← hkeq]; omega)
    (by rw [hclen, ← hkeq]; exact Nat.mul_le_mul_right _ (Nat.le_succ _))
  rw [← hkeq, hclen, Nat.succ_mul, Nat.add_sub_cancel_left] at hrest
  have hA : (table k (values.take i)).length = i * k := by
    rw [length_table, List.length_take, Nat.min_eq_left hile]
  have hB : (table k (values.drop i)).length = (values.length - i) * k := by
    rw [length_table, List.length_drop]
  have hcontents : is.contents = table k (values.take i) ++ table k (values.drop i) := by
    rw [h.contents, ← hkeq, table_split k values i]
  -- after the tail has been moved there is room at the place
  obtain ⟨is₁, X, hmove, hX, hc₁, he₁, hl₁⟩ : ∃ is₁ X,
      (if i < (intsetResize is mem (toUInt ((is.length : Int) + 1))).length then
        intsetMoveTail (intsetResize is mem (toUInt ((is.length : Int) + 1))) i
          (toUInt ((i : Int) + 1))
      else some (intsetResize is mem (toUInt ((is.length : Int) + 1)))) = some is₁ ∧
      X.length = k ∧
      is₁.contents = table k (values.take i) ++ X ++ table k (values.drop i) ∧
      is₁.encoding = k ∧ is₁.length = values.length := by
    rw [hl1, hresize, length_withContents]
    by_cases hi : i < is.length
    · rw [if_pos hi]
      have hi1 : toUInt ((i : Int) + 1) = i + 1 := @toUInt_eq (i + 1) (by omega)
      have hc : is.contents ++ rest =
          table k (values.take i) ++ table k (values.drop i) ++ rest := by rw [hcontents]
      have hroom : (i + 1 + (values.length - i)) * k = (values.length + 1) * k := by
        congr 1
        omega
      rw [hi1, intsetMoveTail_spec (by rw [encoding_withContents, ← hkeq]; exact hk)
        (by rw [length_withContents]; omega) (by rw [length_withContents]; omega)
        (by
          simp only [length_withContents, contents_withContents, encoding_withContents,
            List.length_append, hclen, hrest, hlen, ← hkeq, hroom]
          rw [Nat.succ_mul])
        (by
          simp only [length_withContents, contents_withContents, encoding_withContents,
            List.length_append, hclen, hlen, ← hkeq]
          omega)]
      simp only [length_withContents, contents_withContents, encoding_withContents, hlen, ← hkeq]
      rw [hc, ← hA, ← hB, slice_middle]
      refine ⟨_, (table k (values.drop i) ++ rest).take k, rfl, ?_, ?_, hkeq.symm, hlen⟩
      · rw [List.length_take, List.length_append, hrest]
        omega
      · have hX : ((table k (values.drop i) ++ rest).take k).length = k := by
          rw [List.length_take, List.length_append, hrest]
          omega
        have hY : (table k (values.drop i)).length =
            ((table k (values.drop i) ++ rest).drop k).length := by
          rw [List.length_drop, List.length_append, hrest, Nat.add_sub_cancel]
        have hmem := @overwrite_middle _ (table k (values.drop i))
          (table k (values.take i) ++ (table k (values.drop i) ++ rest).take k)
          ((table k (values.drop i) ++ rest).drop k) [] hY
        rw [List.append_nil, List.append_nil, List.append_assoc, List.take_append_drop,
          List.length_append, hA, hX, ← Nat.succ_mul, ← List.append_assoc] at hmem
        exact hmem
    · rw [if_neg hi]
      have hdrop : values.drop i = [] := List.drop_eq_nil_of_le (by omega)
      refine ⟨_, rest, rfl, hrest, ?_, hkeq.symm, hlen⟩
      simp only [contents_withContents, hcontents, hdrop, table_nil, List.append_nil]
  have hstore : intsetSet is₁ (toInt i) v = some (is₁.withContents
      (table k (values.take i) ++ encode k v ++ table k (values.drop i))) := by
    rw [intsetSet_eq (by rw [he₁]; exact hk), toInt_eq (by omega) (by omega), he₁, store_spec, hc₁,
      ← hA, overwrite_middle (by rw [length_encode, hX])]
    · rfl
    · rw [hc₁, List.length_append, List.length_append, hA, hX]
      omega
  have hl₁' : toUInt ((is₁.length : Int) + 1) = values.length + 1 := by
    rw [hl₁]
    exact @toUInt_eq (values.length + 1) (by omega)
  refine ⟨⟨is₁.encoding, values.length + 1,
    table k (values.take i) ++ encode k v ++ table k (values.drop i)⟩, ?_, ⟨?_, ?_, ?_, ?_, ?_⟩, ?_⟩
  · unfold intsetAdd
    rw [if_neg (by omega), hsearch]
    simp only
    rw [hmove, Option.bind_some, hstore]
    simp only [Option.map_some, length_withContents, hl₁']
    rfl
  · show Width is₁.encoding
    rw [he₁]
    exact hk
  · simp only [List.length_append, List.length_take, List.length_cons, List.length_drop]
    omega
  · simp only [he₁, table_append, table_cons, List.append_assoc]
  · intro x hx
    show Fits is₁.encoding x
    rw [he₁]
    have hold : ∀ y ∈ values, Fits k y := fun y hy => by rw [hkeq]; exact h.fits y hy
    rcases List.mem_append.mp hx with hx | hx
    · exact hold x (List.mem_of_mem_take hx)
    · rcases List.mem_cons.mp hx with rfl | hx
      · exact hfits
      · exact hold x (List.mem_of_mem_drop hx)
  · simp only [List.length_append, List.length_take, List.length_cons, List.length_drop]
    omega
  · rw [← hkeq]
    exact he₁

/-- **`intsetRemove`** of a value that is there. -/
theorem intsetRemove_found (h : Holds is values) (hi : values[i]? = some v)
    (hsearch : intsetSearch is v = some (true, i)) (hv : intsetValueEncoding v ≤ is.encoding) :
    ∃ is', intsetRemove is v = some (is', true) ∧ Holds is' (values.eraseIdx i) ∧
      is'.encoding = is.encoding := by
  have hk := h.width
  have hk8 := hk.le_eight
  have hlen := h.length
  have hbound := h.bound
  obtain ⟨hil, hvi⟩ := List.getElem?_eq_some_iff.mp hi
  obtain ⟨k, hkeq⟩ : ∃ k, k = is.encoding := ⟨_, rfl⟩
  rw [← hkeq] at hk hk8
  have hmul : values.length * k ≤ values.length * 8 := Nat.mul_le_mul_left _ hk8
  have hA : (table k (values.take i)).length = i * k := by
    rw [length_table, List.length_take, Nat.min_eq_left (by omega)]
  have hB : (table k (values.drop (i + 1))).length = (values.length - (i + 1)) * k := by
    rw [length_table, List.length_drop]
  have hcontents : is.contents =
      table k (values.take i) ++ encode k v ++ table k (values.drop (i + 1)) := by
    rw [h.contents, ← hkeq, List.append_assoc, ← table_cons, ← table_append, ← hvi,
      List.getElem_cons_drop, List.take_append_drop]
  have hclen : is.contents.length = values.length * k := by
    rw [h.contents, length_table, hkeq]
  have herase : values.eraseIdx i = values.take i ++ values.drop (i + 1) :=
    List.eraseIdx_eq_take_drop_succ ..
  have hl1 : toUInt ((is.length : Int) - 1) = values.length - 1 := by
    have := @toUInt_eq (values.length - 1) (by omega)
    rw [hlen, ← this]
    congr 1
    omega
  have hsize : toUInt (((values.length - 1 : Nat) : Int) * k) = (values.length - 1) * k := by
    have hle : (values.length - 1) * k ≤ values.length * k := Nat.mul_le_mul_right _ (Nat.sub_le _ _)
    have := @toUInt_eq ((values.length - 1) * k) (by omega)
    rwa [Int.natCast_mul] at this
  have hAB : (values.length - 1) * k = i * k + (values.length - (i + 1)) * k := by
    rw [← Nat.add_mul]
    congr 1
    omega
  -- the tail is moved over the value
  obtain ⟨is₁, rest, hmove, hc₁, he₁, hl₁⟩ : ∃ is₁ rest,
      (if i < toUInt ((is.length : Int) - 1) then intsetMoveTail is (toUInt ((i : Int) + 1)) i
        else some is) = some is₁ ∧
      is₁.contents = table k (values.take i) ++ table k (values.drop (i + 1)) ++ rest ∧
      is₁.encoding = k ∧ is₁.length = values.length := by
    rw [hl1]
    by_cases hlast : i < values.length - 1
    · have hi1 : toUInt ((i : Int) + 1) = i + 1 := @toUInt_eq (i + 1) (by omega)
      rw [if_pos hlast, hi1, intsetMoveTail_spec (by rw [← hkeq]; exact hk) (by omega) (by omega)
        (by
          rw [hclen, ← hkeq]
          exact Nat.mul_le_mul_right _ (by omega))
        (by rw [hclen, hlen, ← hkeq])]
      simp only [hlen, ← hkeq]
      have hsrc : slice is.contents ((i + 1) * k) ((values.length - (i + 1)) * k) =
          table k (values.drop (i + 1)) := by
        have hpre : (table k (values.take i) ++ encode k v).length = (i + 1) * k := by
          rw [List.length_append, hA, length_encode, Nat.succ_mul]
        rw [hcontents, ← hpre, ← hB]
        have := @slice_middle _ (table k (values.take i) ++ encode k v)
          (table k (values.drop (i + 1))) []
        rwa [List.append_nil] at this
      rw [hsrc]
      refine ⟨_, is.contents.drop (i * k + (values.length - (i + 1)) * k), rfl, ?_,
        hkeq.symm, hlen⟩
      show overwrite is.contents (i * k) _ = _
      unfold overwrite
      rw [hB]
      congr 2
      rw [hcontents, List.append_assoc, ← hA, List.take_left]
    · rw [if_neg hlast]
      have hdrop : values.drop (i + 1) = [] := List.drop_eq_nil_of_le (by omega)
      refine ⟨is, encode k v, rfl, ?_, hkeq.symm, hlen⟩
      rw [hcontents, hdrop, table_nil, List.append_nil, List.append_nil]
  refine ⟨{ intsetResize is₁ (fun _ => 0) (values.length - 1) with length := values.length - 1 },
    ?_, ⟨?_, ?_, ?_, ?_, ?_⟩, ?_⟩
  · unfold intsetRemove
    rw [if_pos hv, hsearch]
    simp only
    rw [hmove]
    simp only [Option.map_some, hl1]
  · show Width is₁.encoding
    rw [he₁]
    exact hk
  · rw [List.length_eraseIdx_of_lt hil]
  · simp only [intsetResize, he₁, hsize, hc₁]
    rw [List.take_append_of_le_length (by rw [List.length_append, hA, hB]; omega),
      List.take_of_length_le (by rw [List.length_append, hA, hB]; omega), List.length_append,
      List.length_append, hA, hB, Nat.sub_eq_zero_of_le (by omega), herase, table_append]
    simp
  · intro x hx
    show Fits is₁.encoding x
    rw [he₁, hkeq]
    exact h.fits x (List.mem_of_mem_eraseIdx hx)
  · rw [List.length_eraseIdx_of_lt hil]
    omega
  · exact he₁.trans hkeq

/-! ## Upgrades -/

/-- The memory in the middle of an upgrade: the elements below `j` are still in their old
places, the others in their new ones. -/
structure Halfway (contents : Bytes) (values : List Int) (old new shift j : Nat) : Prop where
  length : contents.length = (values.length + 1) * new
  below : ∀ i v, values[i]? = some v → i < j → slice contents (i * old) old = encode old v
  above : ∀ i v, values[i]? = some v → j ≤ i →
    slice contents ((i + shift) * new) new = encode new v

/-- One element goes to its new place, over nothing that is still needed. -/
theorem Halfway.move {contents : Bytes} {old new shift j : Nat}
    (h : Halfway contents values old new shift (j + 1)) (hon : old ≤ new) (hshift : shift ≤ 1)
    (hj : values[j]? = some v) :
    Halfway (overwrite contents ((j + shift) * new) (encode new v)) values old new shift j := by
  have hjl := (List.getElem?_eq_some_iff.mp hj).1
  have hroom : (j + shift) * new + (encode new v).length ≤ contents.length := by
    rw [length_encode, h.length, ← Nat.succ_mul]
    exact Nat.mul_le_mul_right _ (by omega)
  refine ⟨by rw [length_overwrite hroom, h.length], ?_, ?_⟩
  · intro i w hw hi
    rw [slice_overwrite_other hroom, h.below i w hw (by omega)]
    left
    calc i * old + old = (i + 1) * old := (Nat.succ_mul i old).symm
      _ ≤ j * old := Nat.mul_le_mul_right _ (by omega)
      _ ≤ j * new := Nat.mul_le_mul_left _ hon
      _ ≤ (j + shift) * new := Nat.mul_le_mul_right _ (Nat.le_add_right _ _)
  · intro i w hw hi
    by_cases hij : i = j
    · subst hij
      rw [hj] at hw
      cases hw
      have := slice_overwrite_self hroom
      rwa [length_encode] at this
    · rw [slice_overwrite_other hroom, h.above i w hw (by omega)]
      right
      rw [length_encode, ← Nat.succ_mul]
      exact Nat.mul_le_mul_right _ (by omega)

/-- **The loop** of the upgrade copies every element. -/
theorem upgradeLoop_spec {old shift : Nat} (hold : Width old) (hshift : shift ≤ 1)
    (hfits : ∀ v ∈ values, Fits old v) : ∀ (j : Nat) {is : IntSet}, Width is.encoding →
    old ≤ is.encoding → j ≤ values.length →
    Halfway is.contents values old is.encoding shift j →
    ∃ is', upgradeLoop old shift j is = some is' ∧ is'.encoding = is.encoding ∧
      is'.length = is.length ∧ Halfway is'.contents values old is.encoding shift 0 := by
  intro j
  induction j with
  | zero => intro is _ _ _ h; exact ⟨is, rfl, rfl, rfl, h⟩
  | succ j ih =>
      intro is hk hon hj h
      obtain ⟨v, hv⟩ : ∃ v, values[j]? = some v := ⟨_, List.getElem?_eq_getElem (by omega)⟩
      have hget : intsetGetEncoded is j old = some v := by
        rw [intsetGetEncoded_eq hold]
        refine load_spec ?_ (hfits v (List.mem_of_getElem? hv)) (h.below j v hv (Nat.lt_succ_self j))
        rw [h.length, ← Nat.succ_mul]
        exact Nat.mul_le_mul (by omega) hon
      have hset : intsetSet is ((j : Int) + shift) v = some (is.withContents
          (overwrite is.contents ((j + shift) * is.encoding) (encode is.encoding v))) := by
        rw [intsetSet_eq hk, show ((j : Int) + (shift : Int)) = ((j + shift : Nat) : Int) by omega,
          store_spec]
        · rfl
        · rw [h.length, ← Nat.succ_mul]
          exact Nat.mul_le_mul_right _ (by omega)
      obtain ⟨is', hloop, henc, hlen, hdone⟩ := @ih (is.withContents
        (overwrite is.contents ((j + shift) * is.encoding) (encode is.encoding v)))
        hk hon (by omega) (h.move hon hshift hv)
      refine ⟨is', ?_, henc, hlen, hdone⟩
      rw [upgradeLoop, hget]
      simp only
      rw [hset, Option.bind_some, hloop]

/-- The values after an upgrade: the new one is at its end. -/
def upgraded (values : List Int) (v : Int) : List Int := if v < 0 then v :: values else values ++ [v]

/-- Where the new value is put, and where the elements go. -/
theorem upgraded_get {w : Int} {place shift : Nat}
    (hplace : place = if v < 0 then 0 else values.length)
    (hshift : shift = if v < 0 then 1 else 0) (hw : (upgraded values v)[i]? = some w) :
    (i = place ∧ w = v) ∨ ∃ j, values[j]? = some w ∧ i = j + shift ∧ i ≠ place := by
  unfold upgraded at hw
  by_cases hneg : v < 0
  · rw [if_pos hneg] at hplace hshift hw
    subst hplace hshift
    cases i with
    | zero => exact Or.inl ⟨rfl, by simpa using hw.symm⟩
    | succ j => exact Or.inr ⟨j, by simpa using hw, rfl, Nat.succ_ne_zero j⟩
  · rw [if_neg hneg] at hplace hshift hw
    subst hplace hshift
    rcases Nat.lt_or_ge i values.length with hi | hi
    · rw [List.getElem?_append_left hi] at hw
      exact Or.inr ⟨i, hw, rfl, by omega⟩
    · have hil := (List.getElem?_eq_some_iff.mp hw).1
      rw [List.length_append, List.length_singleton] at hil
      have hi' : i = values.length := by omega
      subst hi'
      exact Or.inl ⟨rfl, by simpa using hw.symm⟩

@[simp] theorem length_upgraded (values : List Int) (v : Int) :
    (upgraded values v).length = values.length + 1 := by
  unfold upgraded
  split
  · rfl
  · rw [List.length_append, List.length_singleton]

theorem mem_upgraded : x ∈ upgraded values v ↔ x = v ∨ x ∈ values := by
  unfold upgraded
  split
  · exact List.mem_cons
  · rw [List.mem_append, List.mem_singleton, or_comm]

/-- When all elements are copied, the new value completes the table. -/
theorem Halfway.finish {contents : Bytes} {old new place shift : Nat}
    (h : Halfway contents values old new shift 0)
    (hplace : place = if v < 0 then 0 else values.length)
    (hshift : shift = if v < 0 then 1 else 0) :
    place * new + new ≤ contents.length ∧
      overwrite contents (place * new) (encode new v) = table new (upgraded values v) := by
  have hle : place ≤ values.length := by
    rw [hplace]
    split
    · exact Nat.zero_le _
    · exact Nat.le_refl _
  have hroom : place * new + new ≤ contents.length := by
    rw [h.length, ← Nat.succ_mul]
    exact Nat.mul_le_mul_right _ (Nat.succ_le_succ hle)
  have hroom' : place * new + (encode new v).length ≤ contents.length := by
    rw [length_encode]
    exact hroom
  refine ⟨hroom, eq_table (by rw [length_overwrite hroom', h.length, length_upgraded]) ?_⟩
  intro i w hw
  rcases upgraded_get hplace hshift hw with ⟨rfl, rfl⟩ | ⟨j, hj, hij, hne⟩
  · have := slice_overwrite_self hroom'
    rwa [length_encode] at this
  · rw [slice_overwrite_other hroom', hij, h.above j w hj (Nat.zero_le _)]
    rw [length_encode, ← Nat.succ_mul, ← Nat.succ_mul]
    rcases Nat.lt_or_gt_of_ne hne with hlt | hgt
    · exact Or.inl (Nat.mul_le_mul_right _ hlt)
    · exact Or.inr (Nat.mul_le_mul_right _ hgt)

/-- Before the loop all elements are in their old places. -/
theorem Holds.halfway (h : Holds is values) {rest : Bytes} {new shift : Nat}
    (hlen : is.contents.length + rest.length = (values.length + 1) * new) :
    Halfway (is.contents ++ rest) values is.encoding new shift values.length := by
  refine ⟨by rw [List.length_append, hlen], ?_, ?_⟩
  · intro i w hw _
    have hil := (List.getElem?_eq_some_iff.mp hw).1
    rw [slice_append_left, h.contents, slice_table hw]
    rw [h.contents, length_table, ← Nat.succ_mul]
    exact Nat.mul_le_mul_right _ hil
  · intro i w hw hi
    have hil := (List.getElem?_eq_some_iff.mp hw).1
    exact absurd hi (Nat.not_le.mpr hil)

/-- **`intsetUpgradeAndAdd`** keeps the elements and puts the new one at its end. -/
theorem intsetUpgradeAndAdd_spec (h : Holds is values) (mem : Nat → UInt8)
    (hfits : Fits (intsetValueEncoding v) v) (hwider : intsetValueEncoding v > is.encoding)
    (hbound : (values.length + 1) * 8 < 2 ^ 32) :
    ∃ is', intsetUpgradeAndAdd is mem v = some is' ∧ Holds is' (upgraded values v) ∧
      is'.encoding = intsetValueEncoding v := by
  have hk : Width (intsetValueEncoding v) := width_valueEncoding v
  have hlen := h.length
  obtain ⟨k, hkeq⟩ : ∃ k, k = intsetValueEncoding v := ⟨_, rfl⟩
  rw [← hkeq] at hk hfits hwider
  have hmul : (values.length + 1) * k ≤ (values.length + 1) * 8 :=
    Nat.mul_le_mul_left _ hk.le_eight
  have hclen : is.contents.length ≤ (values.length + 1) * k := by
    rw [h.contents, length_table]
    exact Nat.mul_le_mul (Nat.le_succ _) (Nat.le_of_lt hwider)
  have hl1 : toUInt ((is.length : Int) + 1) = values.length + 1 := by
    rw [hlen]
    exact @toUInt_eq (values.length + 1) (by omega)
  have hint : toInt (is.length : Int) = values.length := by
    rw [toInt_eq (by omega) (by omega), hlen]
  obtain ⟨rest, hrest, hresize⟩ := @intsetResize_grow { is with encoding := k } mem
    (values.length + 1) (by show (values.length + 1) * k < 2 ^ 32; omega) hclen
  obtain ⟨shift, hshift⟩ : ∃ shift : Nat, shift = if v < 0 then 1 else 0 := ⟨_, rfl⟩
  have hshift1 : shift ≤ 1 := by
    rw [hshift]
    split <;> omega
  have hshiftInt : (if v < 0 then (1 : Int) else 0) = shift := by
    rw [hshift]
    split <;> rfl
  obtain ⟨place, hplace⟩ : ∃ place : Nat, place = if v < 0 then 0 else values.length := ⟨_, rfl⟩
  have hplaceInt : (if v < 0 then (0 : Int) else values.length) = place := by
    rw [hplace]
    split <;> rfl
  obtain ⟨is₁, hloop, henc₁, hlen₁, hdone⟩ := @upgradeLoop_spec _ _ _ h.width hshift1 h.fits
    values.length ⟨k, is.length, is.contents ++ rest⟩ hk (Nat.le_of_lt hwider)
    (Nat.le_refl _) (h.halfway (by
      rw [hrest]
      exact Nat.add_sub_of_le hclen))
  obtain ⟨hroom, htable⟩ := hdone.finish hplace hshift
  have hset : intsetSet is₁ place v = some (is₁.withContents (table k (upgraded values v))) := by
    rw [intsetSet_eq (by rw [henc₁]; exact hk), henc₁, store_spec hroom, htable]
    rfl
  refine ⟨⟨k, values.length + 1, table k (upgraded values v)⟩, ?_,
    ⟨hk, (length_upgraded _ _).symm, rfl, ?_, by rw [length_upgraded]; exact hbound⟩, hkeq⟩
  · unfold intsetUpgradeAndAdd
    simp only [hl1, ← hkeq, hint, hresize, hshiftInt]
    rw [if_neg (Int.not_lt.mpr (Int.natCast_nonneg _)), Int.toNat_natCast]
    show (upgradeLoop is.encoding shift values.length ⟨k, is.length, is.contents ++ rest⟩).bind _ = _
    rw [hloop, Option.bind_some]
    simp only [hlen₁, hint, hplaceInt, hset, Option.map_some, length_withContents, hl1]
    show some (⟨is₁.encoding, values.length + 1, _⟩ : IntSet) = _
    rw [henc₁]
    rfl
  · intro w hw
    show Fits k w
    rcases mem_upgraded.mp hw with rfl | hw
    · exact hfits
    · exact (h.fits w hw).wider (Nat.le_of_lt hwider)

/-- A value that needs more room is outside of all others. -/
theorem upgraded_sorted (h : Holds is values) (hs : values.Pairwise (· < ·)) {value : Int64}
    (hwider : intsetValueEncoding value.toInt > is.encoding) :
    (upgraded values value.toInt).Pairwise (· < ·) ∧ value.toInt ∉ values := by
  have hnot : ¬ Fits is.encoding value.toInt := by
    rw [fits_iff h.width]
    omega
  have hout : ∀ w ∈ values, (value.toInt < 0 → value.toInt < w) ∧
      (¬ value.toInt < 0 → w < value.toInt) := by
    intro w hw
    have hpow : (0 : Int) < 256 ^ is.encoding := Int.pow_pos (by decide)
    have hf := h.fits w hw
    unfold Fits at hf hnot
    constructor
    · intro hneg
      by_contra hge
      exact hnot ⟨by omega, by omega⟩
    · intro hneg
      by_contra hge
      exact hnot ⟨by omega, by omega⟩
  constructor
  · unfold upgraded
    split
    · next hneg => exact List.pairwise_cons.mpr ⟨fun w hw => (hout w hw).1 hneg, hs⟩
    · next hneg =>
        refine List.pairwise_append.mpr ⟨hs, by simp, ?_⟩
        intro a ha b hb
        rw [List.mem_singleton.mp hb]
        exact (hout a ha).2 hneg
  · intro hmem
    exact hnot (h.fits _ hmem)

/-! ## Runs -/

/-- A call; `mem` is what the memory has that an insertion allocates. -/
inductive Op where
  | add (value : Int64) (mem : Nat → UInt8)
  | remove (value : Int64)

/-- One call. -/
def step (is : IntSet) : Op → Option (IntSet × Bool)
  | .add value mem => intsetAdd is mem value.toInt
  | .remove value => intsetRemove is value.toInt

/-- Calls one after the other, with what they report. -/
def run (is : IntSet) : List Op → Option (IntSet × List Bool)
  | [] => some (is, [])
  | op :: ops =>
      (step is op).bind (fun r => (run r.1 ops).map (fun s => (s.1, r.2 :: s.2)))

/-- The finite set that a call leaves. -/
def Op.apply (live : Finset Int) : Op → Finset Int
  | .add value _ => insert value.toInt live
  | .remove value => live.erase value.toInt

/-- What a call has to report. -/
def Op.reports (live : Finset Int) : Op → Bool
  | .add value _ => decide (value.toInt ∉ live)
  | .remove value => decide (value.toInt ∈ live)

/-- The finite set after a run. -/
def liveAfter (live : Finset Int) (ops : List Op) : Finset Int := ops.foldl Op.apply live

/-- What the calls of a run have to report. -/
def reportsOf (live : Finset Int) : List Op → List Bool
  | [] => []
  | op :: ops => op.reports live :: reportsOf (op.apply live) ops

/-- An `intset` with a finite set in it: its elements in increasing order. -/
structure Refines (is : IntSet) (values : List Int) (live : Finset Int) : Prop where
  holds : Holds is values
  increasing : values.Pairwise (· < ·)
  elements : values.toFinset = live

theorem Refines.mem (h : Refines is values live) : v ∈ values ↔ v ∈ live := by
  rw [← h.elements, List.mem_toFinset]

theorem Refines.nodup (h : Refines is values live) : values.Nodup :=
  h.increasing.imp (fun hlt => ne_of_lt hlt)

theorem Refines.card (h : Refines is values live) : values.length = live.card := by
  rw [← h.elements, List.toFinset_card_of_nodup h.nodup]

theorem Split.not_mem (h : Split values v i) : v ∉ values := by
  intro hv
  rw [← List.take_append_drop i values] at hv
  rcases List.mem_append.mp hv with hv | hv
  · exact lt_irrefl v (h.below v hv)
  · exact lt_irrefl v (h.above v hv)

/-- What the widths say about the values of a call. -/
theorem Refines.not_mem_of_wider (h : Refines is values live) {value : Int64}
    (hwider : intsetValueEncoding value.toInt > is.encoding) : value.toInt ∉ live := by
  intro hmem
  have hfits := h.holds.fits value.toInt (h.mem.mpr hmem)
  rw [fits_iff h.holds.width] at hfits
  exact absurd hwider (Nat.not_lt.mpr hfits)

/-- A step from a set to the next one. -/
structure Steps (is : IntSet) (values : List Int) (live : Finset Int) (op : Op) (is' : IntSet)
    (values' : List Int) : Prop where
  report : step is op = some (is', op.reports live)
  refines : Refines is' values' (op.apply live)
  wider : is.encoding ≤ is'.encoding
  upgrade : is.encoding < is'.encoding →
    ∃ value mem, op = .add value mem ∧ values' = upgraded values value.toInt

theorem Refines.add (h : Refines is values live) (value : Int64) (mem : Nat → UInt8)
    (hbound : (insert value.toInt live).card * 8 < 2 ^ 32) :
    ∃ is' values', Steps is values live (.add value mem) is' values' := by
  have hroom : value.toInt ∉ live → (values.length + 1) * 8 < 2 ^ 32 := by
    intro hnew
    rw [h.card, ← Finset.card_insert_of_notMem hnew]
    exact hbound
  by_cases hwider : intsetValueEncoding value.toInt > is.encoding
  · have hnew := h.not_mem_of_wider hwider
    obtain ⟨is', hadd, hholds, henc⟩ := intsetUpgradeAndAdd_spec h.holds mem
      ((fits_iff (width_valueEncoding _) value).mpr (Nat.le_refl _)) hwider (hroom hnew)
    refine ⟨is', upgraded values value.toInt, ?_,
      ⟨hholds, (upgraded_sorted h.holds h.increasing hwider).1, ?_⟩, ?_,
      fun _ => ⟨value, mem, rfl, rfl⟩⟩
    · show intsetAdd is mem value.toInt = some (is', decide (value.toInt ∉ live))
      rw [intsetAdd, if_pos hwider, hadd, decide_eq_true hnew]
      rfl
    · ext x
      rw [List.mem_toFinset, mem_upgraded, h.mem]
      exact Finset.mem_insert.symm
    · rw [henc]
      exact Nat.le_of_lt hwider
  · have hle := Nat.not_lt.mp hwider
    rcases intsetSearch_spec h.holds h.increasing value.toInt with
      ⟨i, hsearch, hi⟩ | ⟨i, hsearch, hsplit⟩
    · -- the value is there
      have hold : value.toInt ∈ live := h.mem.mp (List.mem_of_getElem? hi)
      refine ⟨is, values, ?_, ⟨h.holds, h.increasing, ?_⟩, Nat.le_refl _,
        fun hlt => absurd hlt (Nat.lt_irrefl _)⟩
      · show intsetAdd is mem value.toInt = some (is, decide (value.toInt ∉ live))
        rw [intsetAdd, if_neg hwider, hsearch, decide_eq_false (not_not.mpr hold)]
      · rw [h.elements]
        exact (Finset.insert_eq_of_mem hold).symm
    · have hnew : value.toInt ∉ live := fun hmem => hsplit.not_mem (h.mem.mpr hmem)
      obtain ⟨is', hadd, hholds, henc⟩ := intsetAdd_place h.holds mem hsplit hsearch hle
        ((fits_iff h.holds.width value).mpr hle) (hroom hnew)
      refine ⟨is', _, ?_, ⟨hholds, hsplit.sorted h.increasing, ?_⟩, Nat.le_of_eq henc.symm,
        fun hlt => absurd hlt (by rw [henc]; exact Nat.lt_irrefl _)⟩
      · show intsetAdd is mem value.toInt = some (is', decide (value.toInt ∉ live))
        rw [hadd, decide_eq_true hnew]
      · rw [List.toFinset_append, List.toFinset_cons, Finset.union_insert, ← List.toFinset_append,
          List.take_append_drop, h.elements]
        rfl

theorem Refines.remove (h : Refines is values live) (value : Int64) :
    ∃ is' values', Steps is values live (.remove value) is' values' := by
  by_cases hle : intsetValueEncoding value.toInt ≤ is.encoding
  · rcases intsetSearch_spec h.holds h.increasing value.toInt with
      ⟨i, hsearch, hi⟩ | ⟨i, hsearch, hsplit⟩
    · have hold : value.toInt ∈ live := h.mem.mp (List.mem_of_getElem? hi)
      obtain ⟨is', hremove, hholds, henc⟩ := intsetRemove_found h.holds hi hsearch hle
      refine ⟨is', values.eraseIdx i, ?_, ⟨hholds, h.increasing.sublist
        (List.eraseIdx_sublist _ _), ?_⟩, Nat.le_of_eq henc.symm,
        fun hlt => absurd hlt (by rw [henc]; exact Nat.lt_irrefl _)⟩
      · show intsetRemove is value.toInt = some (is', decide (value.toInt ∈ live))
        rw [hremove, decide_eq_true hold]
      · obtain ⟨hil, hvi⟩ := List.getElem?_eq_some_iff.mp hi
        ext x
        have herase : x ∈ values.eraseIdx i ↔ x ∈ values.erase values[i] :=
          (List.erase_getElem hil).mem_iff.symm
        rw [List.mem_toFinset, herase, h.nodup.mem_erase_iff, hvi, h.mem]
        exact Finset.mem_erase.symm
    · have hnew : value.toInt ∉ live := fun hmem => hsplit.not_mem (h.mem.mpr hmem)
      refine ⟨is, values, ?_, ⟨h.holds, h.increasing, ?_⟩, Nat.le_refl _,
        fun hlt => absurd hlt (Nat.lt_irrefl _)⟩
      · show intsetRemove is value.toInt = some (is, decide (value.toInt ∈ live))
        rw [intsetRemove, if_pos hle, hsearch, decide_eq_false hnew]
      · rw [h.elements]
        exact (Finset.erase_eq_of_notMem hnew).symm
  · have hnew := h.not_mem_of_wider (Nat.lt_of_not_le hle)
    refine ⟨is, values, ?_, ⟨h.holds, h.increasing, ?_⟩, Nat.le_refl _,
      fun hlt => absurd hlt (Nat.lt_irrefl _)⟩
    · show intsetRemove is value.toInt = some (is, decide (value.toInt ∈ live))
      rw [intsetRemove, if_neg hle, decide_eq_false hnew]
    · rw [h.elements]
      exact (Finset.erase_eq_of_notMem hnew).symm

/-- **One call** does to the `intset` what it does to the finite set. -/
theorem Refines.step (h : Refines is values live) (op : Op)
    (hbound : (op.apply live).card * 8 < 2 ^ 32) :
    ∃ is' values', Steps is values live op is' values' := by
  cases op with
  | add value mem => exact h.add value mem hbound
  | remove value => exact h.remove value

/-- **`intsetFind`** answers membership. -/
theorem Refines.find (h : Refines is values live) (value : Int64) :
    intsetFind is value.toInt = some (decide (value.toInt ∈ live)) := by
  unfold intsetFind
  by_cases hle : intsetValueEncoding value.toInt ≤ is.encoding
  · rw [if_pos hle]
    rcases intsetSearch_spec h.holds h.increasing value.toInt with
      ⟨i, hsearch, hi⟩ | ⟨i, hsearch, hsplit⟩
    · rw [hsearch, decide_eq_true (h.mem.mp (List.mem_of_getElem? hi))]
      rfl
    · rw [hsearch, decide_eq_false (fun hmem => hsplit.not_mem (h.mem.mpr hmem))]
      rfl
  · rw [if_neg hle, decide_eq_false (h.not_mem_of_wider (Nat.lt_of_not_le hle))]

/-- **`intsetGet`** reads the element at a position, and fails where there is none. -/
theorem Refines.get (h : Refines is values live) (pos : Nat) :
    intsetGet is pos = some values[pos]? := by
  have hlen := h.holds.length
  have hbound := h.holds.bound
  unfold intsetGet
  by_cases hpos : pos < is.length
  · obtain ⟨x, hx⟩ : ∃ x, values[pos]? = some x := ⟨_, List.getElem?_eq_getElem (by omega)⟩
    rw [if_pos hpos, toInt_eq (by omega) (by omega), h.holds.get hx, hx]
    rfl
  · rw [if_neg hpos, List.getElem?_eq_none (by omega)]

theorem refines_intsetNew : Refines intsetNew [] ∅ where
  holds := ⟨Or.inl rfl, rfl, rfl, by simp, by decide⟩
  increasing := List.Pairwise.nil
  elements := rfl

theorem run_append (is : IntSet) (ops : List Op) (op : Op) :
    run is (ops ++ [op]) =
      (run is ops).bind (fun r => (step r.1 op).map (fun s => (s.1, r.2 ++ [s.2]))) := by
  induction ops generalizing is with
  | nil => cases h : step is op <;> simp [run, h]
  | cons o ops ih =>
      rw [List.cons_append, run, run]
      cases h : step is o with
      | none => rfl
      | some r =>
          rw [Option.bind_some, Option.bind_some, ih]
          cases run r.1 ops with
          | none => rfl
          | some s => cases h' : step s.1 op <;> simp [h']

theorem reportsOf_append (live : Finset Int) (ops : List Op) (op : Op) :
    reportsOf live (ops ++ [op]) = reportsOf live ops ++ [op.reports (liveAfter live ops)] := by
  induction ops generalizing live with
  | nil => rfl
  | cons o ops ih =>
      rw [List.cons_append, reportsOf, ih, reportsOf, List.cons_append]
      rfl

theorem liveAfter_append (live : Finset Int) (ops : List Op) (op : Op) :
    liveAfter live (ops ++ [op]) = op.apply (liveAfter live ops) := by
  unfold liveAfter
  rw [List.foldl_append]
  rfl

/-- **A run** from an empty set, whose sets stay below the given size, refines the run on
finite sets. -/
theorem run_refines (ops : List Op)
    (hbound : ∀ pre, pre <+: ops → (liveAfter ∅ pre).card * 8 < 2 ^ 32) :
    ∃ is values, run intsetNew ops = some (is, reportsOf ∅ ops) ∧
      Refines is values (liveAfter ∅ ops) := by
  induction ops using List.reverseRecOn with
  | nil => exact ⟨intsetNew, [], rfl, refines_intsetNew⟩
  | append_singleton ops op ih =>
      obtain ⟨is, values, hrun, hrefines⟩ :=
        ih (fun pre hpre => hbound pre (hpre.trans (List.prefix_append _ _)))
      obtain ⟨is', values', hstep⟩ := hrefines.step op (by
        rw [← liveAfter_append]
        exact hbound _ (List.prefix_refl _))
      refine ⟨is', values', ?_, ?_⟩
      · rw [run_append, hrun, Option.bind_some, hstep.report, reportsOf_append]
        rfl
      · rw [liveAfter_append]
        exact hstep.refines

/-- **An `intset` is a finite set of 64 bit integers.**  In every run the calls report what
they have to; the elements are in increasing order, they fit the width, and no call makes the
width less; `intsetFind` and `intsetGet` read the set; and a call that makes the width more
puts the new element at its end of the elements that were there. -/
theorem intset_refines (ops : List Op)
    (hbound : ∀ pre, pre <+: ops → (liveAfter ∅ pre).card * 8 < 2 ^ 32) :
    (∃ is values, run intsetNew ops = some (is, reportsOf ∅ ops) ∧
      Refines is values (liveAfter ∅ ops) ∧
      (∀ value : Int64,
        intsetFind is value.toInt = some (decide (value.toInt ∈ liveAfter ∅ ops))) ∧
      ∀ pos, intsetGet is pos = some values[pos]?) ∧
    ∀ pre op, pre ++ [op] <+: ops →
      ∃ is values is' values', run intsetNew pre = some (is, reportsOf ∅ pre) ∧
        Refines is values (liveAfter ∅ pre) ∧
        Steps is values (liveAfter ∅ pre) op is' values' := by
  constructor
  · obtain ⟨is, values, hrun, hrefines⟩ := run_refines ops hbound
    exact ⟨is, values, hrun, hrefines, hrefines.find, hrefines.get⟩
  · intro pre op hpre
    obtain ⟨is, values, hrun, hrefines⟩ := run_refines pre
      (fun p hp => hbound p (hp.trans ((List.prefix_append _ _).trans hpre)))
    obtain ⟨is', values', hstep⟩ := hrefines.step op (by
      rw [← liveAfter_append]
      exact hbound _ hpre)
    exact ⟨is, values, is', values', hrun, hrefines, hstep⟩

theorem card_liveAfter_le (ops : List Op) : (liveAfter ∅ ops).card ≤ ops.length := by
  induction ops using List.reverseRecOn with
  | nil => exact Nat.le_refl 0
  | append_singleton ops op ih =>
      rw [liveAfter_append, List.length_append, List.length_singleton]
      cases op with
      | add value mem => exact Nat.le_trans (Finset.card_insert_le _ _) (Nat.succ_le_succ ih)
      | remove value =>
          exact Nat.le_trans (Finset.card_le_card (Finset.erase_subset _ _)) (Nat.le_succ_of_le ih)

/-- Three widths, with a new element at either end. -/
theorem intset_refines_upgrades :
    ∃ is values, run intsetNew [.add 5 (fun _ => 7), .add (-70000) (fun _ => 7),
        .add 5000000000 (fun _ => 7), .remove 5, .add 5000000000 (fun _ => 7)] =
          some (is, [true, true, true, true, false]) ∧
      Refines is values {5000000000, -70000} := by
  obtain ⟨is, values, hrun, hrefines, -⟩ := (intset_refines [.add 5 (fun _ => 7),
    .add (-70000) (fun _ => 7), .add 5000000000 (fun _ => 7), .remove 5,
    .add 5000000000 (fun _ => 7)] (by
      intro pre hpre
      have hcard := card_liveAfter_le pre
      have hlen := hpre.length_le
      simp only [List.length_cons, List.length_nil] at hlen
      omega)).1
  exact ⟨is, values, hrun, hrefines⟩

end Intset

end RedisCore
