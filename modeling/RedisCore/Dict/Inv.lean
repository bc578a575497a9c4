/-
# `RedisCore.Dict.Inv` — what every reachable hash table satisfies

Two levels.  `HtInv` is about one `dictht`: the three counters tell the truth and
every entry sits in the bucket its hash selects.  `Inv` is about the pair of tables:
no key twice, the second table present exactly while a rehash runs, and the part of
the first table behind `rehashidx` empty.

The lemmas of this file are about the moves the operations are made of: replacing a
chain, pushing an entry, draining a bucket, opening a second table.
-/
import RedisCore.Dict.Table
import Mathlib.Data.List.Perm.Basic
import Mathlib.Data.List.Pairwise

namespace RedisCore

variable {α β : Type} {t : DictType α}

/-- The comparison is an equivalence and the hash respects it. -/
structure DictType.Lawful (t : DictType α) : Prop where
  refl : ∀ a, t.keyCompare a a = true
  symm : ∀ {a b}, t.keyCompare a b = true → t.keyCompare b a = true
  trans : ∀ {a b c}, t.keyCompare a b = true → t.keyCompare b c = true → t.keyCompare a c = true
  hash : ∀ {a b}, t.keyCompare a b = true → t.hashFunction a = t.hashFunction b

/-- All entries of a table, bucket by bucket. -/
def Dictht.entries (ht : Dictht α β) : List (DictEntry α β) := ht.table.flatten

/-- All entries of both tables. -/
def Dict.entries (d : Dict α β) : List (DictEntry α β) := d.ht0.entries ++ d.ht1.entries

/-- What holds of one table. -/
structure HtInv (t : DictType α) (ht : Dictht α β) : Prop where
  length : ht.table.length = ht.size
  mask : ht.sizemask = ht.size - 1
  pow : ht.size = 0 ∨ ∃ k, ht.size = 2 ^ k
  used : ht.used = ht.entries.length
  bucket : ∀ i, ∀ e ∈ ht.chain i, ht.index t e.key = i

/-- What holds of the pair of tables. -/
structure Inv (t : DictType α) (d : Dict α β) : Prop where
  ht0 : HtInv t d.ht0
  ht1 : HtInv t d.ht1
  distinct : d.entries.Pairwise (fun a b => t.keyCompare a.key b.key = false)
  idle : d.rehashidx = none ↔ d.ht1.size = 0
  drained : ∀ idx, d.rehashidx = some idx → ∀ j < idx, d.ht0.chain j = []
  behind : ∀ idx, d.rehashidx = some idx → idx ≤ d.ht0.size ∧ d.ht0.size ≠ 0

/-! ## One table -/

theorem HtInv.index_lt {ht : Dictht α β} (h : HtInv t ht) (hne : ht.size ≠ 0) (key : α) :
    ht.index t key < ht.size := by
  obtain h0 | ⟨k, hk⟩ := h.pow
  · exact absurd h0 hne
  · rw [Dictht.index, h.mask, hk, Nat.and_two_pow_sub_one_eq_mod]
    exact Nat.mod_lt _ (Nat.two_pow_pos k)

/-- The bucket of a key is its hash modulo the size. -/
theorem HtInv.index_eq {ht : Dictht α β} {k : Nat} (h : HtInv t ht) (hk : ht.size = 2 ^ k)
    (key : α) : ht.index t key = t.hashFunction key % 2 ^ k := by
  rw [Dictht.index, h.mask, hk, Nat.and_two_pow_sub_one_eq_mod]

theorem Dictht.index_congr (hl : t.Lawful) (ht : Dictht α β) {a b : α}
    (h : t.keyCompare a b = true) : ht.index t a = ht.index t b := by
  rw [Dictht.index, Dictht.index, hl.hash h]

theorem htInv_reset : HtInv t (dictReset : Dictht α β) where
  length := rfl
  mask := rfl
  pow := Or.inl rfl
  used := rfl
  bucket := fun i e he => by simp [Dictht.chain, dictReset] at he

theorem Dictht.chain_of_lt {ht : Dictht α β} {i : Nat} (hi : i < ht.table.length) :
    ht.chain i = ht.table[i] := by
  simp [Dictht.chain, List.getD_eq_getElem?_getD, hi]

theorem Dictht.chain_of_ge {ht : Dictht α β} {i : Nat} (hi : ht.table.length ≤ i) :
    ht.chain i = [] := by
  simp [Dictht.chain, List.getD_eq_getElem?_getD, List.getElem?_eq_none hi]

theorem Dictht.mem_entries {ht : Dictht α β} {e : DictEntry α β} :
    e ∈ ht.entries ↔ ∃ i, e ∈ ht.chain i := by
  simp only [Dictht.entries, List.mem_flatten]
  constructor
  · rintro ⟨c, hc, he⟩
    obtain ⟨i, hi, rfl⟩ := List.getElem_of_mem hc
    exact ⟨i, by rwa [Dictht.chain_of_lt hi]⟩
  · rintro ⟨i, he⟩
    by_cases hi : i < ht.table.length
    · rw [Dictht.chain_of_lt hi] at he
      exact ⟨_, List.getElem_mem hi, he⟩
    · rw [Dictht.chain_of_ge (Nat.le_of_not_lt hi)] at he
      exact absurd he List.not_mem_nil

/-- An entry of a table is in the chain its own key selects. -/
theorem HtInv.mem_chain {ht : Dictht α β} (h : HtInv t ht) {e : DictEntry α β}
    (he : e ∈ ht.entries) : e ∈ ht.chain (ht.index t e.key) := by
  obtain ⟨i, hi⟩ := Dictht.mem_entries.mp he
  rwa [h.bucket i e hi]

/-- A table splits, up to order, into one chain and the rest, and replacing the
chain leaves the rest alone. -/
theorem Dictht.exists_rest {ht : Dictht α β} {i : Nat} (hi : i < ht.table.length) :
    ∃ rest, ht.entries.Perm (ht.chain i ++ rest) ∧
      ∀ c, (ht.setChain i c).entries.Perm (c ++ rest) := by
  refine ⟨(ht.table.take i).flatten ++ (ht.table.drop (i + 1)).flatten, ?_, ?_⟩
  · have hsplit : ht.table = ht.table.take i ++ ht.chain i :: ht.table.drop (i + 1) := by
      conv_lhs => rw [← List.take_append_drop i ht.table, List.drop_eq_getElem_cons hi]
      rw [Dictht.chain_of_lt hi]
    have : ht.entries = (ht.table.take i).flatten
        ++ (ht.chain i ++ (ht.table.drop (i + 1)).flatten) := by
      rw [Dictht.entries]
      conv_lhs => rw [hsplit]
      rw [List.flatten_append, List.flatten_cons]
    rw [this]
    exact List.perm_append_comm_assoc _ _ _
  · intro c
    have : (ht.setChain i c).entries = (ht.table.take i).flatten
        ++ (c ++ (ht.table.drop (i + 1)).flatten) := by
      show (ht.table.set i c).flatten = _
      rw [List.set_eq_take_append_cons_drop, if_pos hi, List.flatten_append, List.flatten_cons]
    rw [this]
    exact List.perm_append_comm_assoc _ _ _

@[simp] theorem Dictht.chain_setChain {ht : Dictht α β} {i j : Nat} (hi : i < ht.table.length)
    (c : List (DictEntry α β)) :
    (ht.setChain i c).chain j = if i = j then c else ht.chain j := by
  simp only [Dictht.chain, Dictht.setChain, List.getD_eq_getElem?_getD, List.getElem?_set, hi]
  by_cases h : i = j
  · simp [h]
  · simp [h]

/-- Replacing a chain by one filed under the same index, with `used` adjusted. -/
theorem HtInv.setChain {ht : Dictht α β} (h : HtInv t ht) {i u : Nat} (hi : i < ht.size)
    {c : List (DictEntry α β)} (hc : ∀ e ∈ c, ht.index t e.key = i)
    (hu : u + (ht.chain i).length = ht.used + c.length) :
    HtInv t { ht.setChain i c with used := u } := by
  have hi' : i < ht.table.length := h.length ▸ hi
  obtain ⟨rest, hold, hnew⟩ := Dictht.exists_rest hi'
  refine ⟨?_, h.mask, h.pow, ?_, ?_⟩
  · show (ht.table.set i c).length = ht.size
    rw [List.length_set, h.length]
  · show u = (ht.setChain i c).entries.length
    have h1 := hold.length_eq
    have h2 := (hnew c).length_eq
    have h3 := h.used
    simp only [List.length_append] at h1 h2
    omega
  · intro j e he
    have he' : e ∈ (ht.setChain i c).chain j := he
    rw [Dictht.chain_setChain hi'] at he'
    show ht.index t e.key = j
    by_cases hij : i = j
    · rw [if_pos hij] at he'
      exact hij ▸ hc e he'
    · rw [if_neg hij] at he'
      exact h.bucket j e he'

/-! ## Pushing entries -/

/-- Pushing an entry on the chain its key selects. -/
theorem HtInv.push {ht : Dictht α β} (h : HtInv t ht) (hne : ht.size ≠ 0) (e : DictEntry α β) :
    HtInv t (ht.insertTop (ht.index t e.key) e) ∧
      (ht.insertTop (ht.index t e.key) e).entries.Perm (e :: ht.entries) := by
  have hi := h.index_lt hne e.key
  constructor
  · apply h.setChain hi
    · intro x hx
      rcases List.mem_cons.mp hx with rfl | hx
      · rfl
      · exact h.bucket _ x hx
    · simp only [List.length_cons]; omega
  · obtain ⟨rest, hold, hnew⟩ := Dictht.exists_rest (h.length ▸ hi : _ < ht.table.length)
    exact (hnew _).trans (hold.symm.cons e)

theorem pushRehashed_eq (ht : Dictht α β) (e : DictEntry α β) :
    pushRehashed t ht e = ht.insertTop (ht.index t e.key) e := rfl

/-- Rehashing a whole chain. -/
theorem HtInv.pushAll {c : List (DictEntry α β)} : ∀ {ht : Dictht α β}, HtInv t ht →
    ht.size ≠ 0 → HtInv t (c.foldl (pushRehashed t) ht) ∧
      (c.foldl (pushRehashed t) ht).entries.Perm (c ++ ht.entries) := by
  induction c with
  | nil => intro ht h _; exact ⟨h, List.Perm.refl _⟩
  | cons e c ih =>
      intro ht h hne
      obtain ⟨h1, hp1⟩ := h.push hne e
      obtain ⟨h2, hp2⟩ := @ih (pushRehashed t ht e) h1 hne
      refine ⟨h2, ?_⟩
      exact hp2.trans ((hp1.append_left c).trans List.perm_middle)

/-! ## A fresh table -/

theorem htInv_fresh (k : Nat) :
    HtInv t (⟨List.replicate (2 ^ k) [], 2 ^ k, 2 ^ k - 1, 0⟩ : Dictht α β) where
  length := List.length_replicate
  mask := rfl
  pow := Or.inr ⟨k, rfl⟩
  used := by simp [Dictht.entries]
  bucket := fun i e he => by
    simp only [Dictht.chain, List.getD_eq_getElem?_getD, List.getElem?_replicate] at he
    split at he <;> simp at he

theorem entries_fresh (n : Nat) (m u : Nat) :
    (⟨List.replicate n [], n, m, u⟩ : Dictht α β).entries = [] := by
  simp [Dictht.entries]

theorem HtInv.entries_nil {ht : Dictht α β} (h : HtInv t ht) (hs : ht.size = 0) :
    ht.table = [] := by
  have := h.length
  rw [hs] at this
  exact List.eq_nil_of_length_eq_zero this

/-! ## `_dictNextPower` -/

theorem nextPowerLoop_spec (size : Nat) : ∀ (fuel j : Nat), size ≤ 2 ^ (j + fuel) →
    ∃ k, j ≤ k ∧ nextPowerLoop size fuel (2 ^ j) = 2 ^ k ∧ size ≤ 2 ^ k := by
  intro fuel
  induction fuel with
  | zero => intro j h; exact ⟨j, Nat.le_refl j, rfl, h⟩
  | succ fuel ih =>
      intro j h
      by_cases hj : 2 ^ j ≥ size
      · exact ⟨j, Nat.le_refl j, by simp [nextPowerLoop, hj], hj⟩
      · obtain ⟨k, hk, he, hs⟩ := ih (j + 1) (by rwa [Nat.add_right_comm, Nat.add_assoc])
        refine ⟨k, by omega, ?_, hs⟩
        rw [nextPowerLoop, if_neg hj, ← Nat.pow_succ]
        exact he

/-- Below `LONG_MAX` the answer is a power of two, at least 4 and at least the
argument. -/
theorem dictNextPower_spec {size : Nat} (h : size < 2 ^ 63 - 1) :
    ∃ k, 2 ≤ k ∧ dictNextPower size = 2 ^ k ∧ size ≤ 2 ^ k := by
  have hlt : ¬ size ≥ CInt.LONG_MAX.toNat := by
    have : CInt.LONG_MAX.toNat = 2 ^ 63 - 1 := rfl
    omega
  obtain ⟨k, hk, he, hs⟩ := nextPowerLoop_spec size 62 2 (by omega)
  refine ⟨k, hk, ?_, hs⟩
  rw [dictNextPower, if_neg hlt]
  exact he

theorem dictNextPower_of_lt {size : Nat} (h : dictNextPower size < 2 ^ 63 - 1) :
    size < 2 ^ 63 - 1 := by
  by_contra hge
  have hmax : CInt.LONG_MAX.toNat = 2 ^ 63 - 1 := rfl
  rw [dictNextPower, if_pos (by omega)] at h
  omega

end RedisCore
