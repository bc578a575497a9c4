/-
# `RedisCore.Lib.Tracked` — lists that hold the objects with a flag

A program keeps objects on a heap and, for every role an object can play, a list of
the objects that play it; a flag in the object says whether it is on the list.
`Tracks h p l` is what such a pair has to satisfy.  The lemmas are the ways a program
can go on: change an object in other respects, enlist it, take it off, allocate one,
free one.
-/
import Mathlib.Data.List.Nodup
import Mathlib.Logic.Function.Basic

namespace Tracked

variable {ι κ : Type} {h : ι → Option κ} {p : κ → Bool} {l : List ι} {i : ι} {k k' : κ}

/-- The list has no duplicates, and exactly the objects with the flag are on it. -/
def Tracks (h : ι → Option κ) (p : κ → Bool) (l : List ι) : Prop :=
  l.Nodup ∧ ∀ i, i ∈ l ↔ ∃ k, h i = some k ∧ p k = true

theorem Tracks.mem (ht : Tracks h p l) (hi : h i = some k) : i ∈ l ↔ p k = true := by
  rw [ht.2]
  constructor
  · rintro ⟨k', hk', hp⟩
    rw [hi] at hk'
    cases hk'
    exact hp
  · intro hp
    exact ⟨k, hi, hp⟩

theorem Tracks.not_mem (ht : Tracks h p l) (hi : h i = none) : i ∉ l := by
  rw [ht.2]
  rintro ⟨k, hk, _⟩
  rw [hi] at hk
  exact absurd hk (by simp)

/-- Nothing allocated, nothing listed. -/
theorem tracks_nil : Tracks (fun _ => none) p ([] : List ι) := ⟨List.nodup_nil, fun i => by simp⟩

variable [DecidableEq ι]

/-- Replace one cell of the heap, and one member of the list. -/
theorem Tracks.replace (ht : Tracks h p l) {c : Option κ} {l' : List ι} (hnd : l'.Nodup)
    (hi : i ∈ l' ↔ ∃ k, c = some k ∧ p k = true) (hother : ∀ j, j ≠ i → (j ∈ l' ↔ j ∈ l)) :
    Tracks (Function.update h i c) p l' := by
  refine ⟨hnd, fun j => ?_⟩
  by_cases hj : j = i
  · subst hj
    rw [Function.update_self]
    exact hi
  · rw [Function.update_of_ne hj, hother j hj]
    exact ht.2 j

/-- A change that leaves the flag alone. -/
theorem Tracks.keep (ht : Tracks h p l) (hi : h i = some k) (hp : p k' = p k) :
    Tracks (Function.update h i (some k')) p l :=
  ht.replace ht.1 (by rw [ht.mem hi, ← hp]; simp) (fun _ _ => Iff.rfl)

/-- Take the flag away, and the object off the list. -/
theorem Tracks.clear (ht : Tracks h p l) (hp : p k' = false) :
    Tracks (Function.update h i (some k')) p (l.erase i) :=
  ht.replace (ht.1.erase i) (by simp [ht.1.not_mem_erase, hp])
    (fun _ hj => List.mem_erase_of_ne hj)

/-- Set the flag, and put the object at the end of the list. -/
theorem Tracks.append (ht : Tracks h p l) (hi : i ∉ l) (hp : p k' = true) :
    Tracks (Function.update h i (some k')) p (l ++ [i]) := by
  refine ht.replace ?_ (by simp [hp]) (fun j hj => by simp [hj])
  exact List.nodup_append.mpr ⟨ht.1, List.nodup_singleton i,
    fun a ha b hb hab => hi (by rw [← List.mem_singleton.mp hb, ← hab]; exact ha)⟩

/-- Set the flag, and put the object at the head of the list. -/
theorem Tracks.cons (ht : Tracks h p l) (hi : i ∉ l) (hp : p k' = true) :
    Tracks (Function.update h i (some k')) p (i :: l) :=
  ht.replace (List.nodup_cons.mpr ⟨hi, ht.1⟩) (by simp [hp]) (fun j hj => by simp [hj])

/-- A new object without the flag. -/
theorem Tracks.alloc (ht : Tracks h p l) (hi : h i = none) (hp : p k' = false) :
    Tracks (Function.update h i (some k')) p l :=
  ht.replace ht.1 (by simp [ht.not_mem hi, hp]) (fun _ _ => Iff.rfl)

/-- The end of an object, taken off the list. -/
theorem Tracks.free (ht : Tracks h p l) : Tracks (Function.update h i none) p (l.erase i) :=
  ht.replace (ht.1.erase i) (by simp [ht.1.not_mem_erase]) (fun _ hj => List.mem_erase_of_ne hj)

end Tracked
