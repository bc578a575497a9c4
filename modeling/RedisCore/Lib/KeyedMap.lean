/-
# `RedisCore.Lib.KeyedMap` — lists of bindings as finite maps

A list of bindings with distinct keys denotes a finite map, and the map does not
depend on the order of the list.  That is all a hash table needs: its operations
permute the bindings, add one, drop one or change one value, and each of these has
one counterpart on maps.
-/
import Mathlib.Data.List.Perm.Basic
import Mathlib.Data.List.Nodup
import Mathlib.Data.Set.Card

namespace KeyedMap

open Classical

variable {κ β : Type}

/-- The keys of a list of bindings are distinct. -/
def Distinct (E : List (κ × β)) : Prop := (E.map Prod.fst).Nodup

/-- The map a list of bindings denotes. -/
noncomputable def toMap (E : List (κ × β)) (k : κ) : Option β :=
  (E.find? (fun b => decide (b.1 = k))).map Prod.snd

/-- The number of keys a map binds. -/
noncomputable def card (m : κ → Option β) : Nat := {k | m k ≠ none}.ncard

theorem toMap_nil : toMap ([] : List (κ × β)) = fun _ => none := rfl

theorem toMap_cons (b : κ × β) (E : List (κ × β)) :
    toMap (b :: E) = Function.update (toMap E) b.1 (some b.2) := by
  funext k
  by_cases h : b.1 = k
  · subst h
    simp [toMap]
  · simp [toMap, h, Function.update_of_ne (Ne.symm h)]

theorem toMap_eq_none_iff {E : List (κ × β)} {k : κ} :
    toMap E k = none ↔ k ∉ E.map Prod.fst := by
  simp only [toMap, Option.map_eq_none_iff, List.find?_eq_none, decide_eq_true_eq,
    List.mem_map, not_exists, not_and]

theorem toMap_of_mem {E : List (κ × β)} (hE : Distinct E) {b : κ × β} (hb : b ∈ E) :
    toMap E b.1 = some b.2 := by
  induction E with
  | nil => exact absurd hb List.not_mem_nil
  | cons c E ih =>
      have hnd : c.1 ∉ E.map Prod.fst ∧ Distinct E := List.nodup_cons.mp hE
      rw [toMap_cons]
      rcases List.mem_cons.mp hb with rfl | hb
      · exact Function.update_self _ _ _
      · have hne : b.1 ≠ c.1 := fun he => hnd.1 (he ▸ List.mem_map_of_mem hb)
        rw [Function.update_of_ne hne]
        exact ih hnd.2 hb

theorem Distinct.perm {E E' : List (κ × β)} (hE : Distinct E) (h : E.Perm E') : Distinct E' :=
  (h.map Prod.fst).nodup_iff.mp hE

/-- The order of the bindings does not matter. -/
theorem toMap_perm {E E' : List (κ × β)} (hE : Distinct E) (h : E.Perm E') :
    toMap E = toMap E' := by
  funext k
  cases hk : toMap E' k with
  | none =>
      rw [toMap_eq_none_iff] at hk ⊢
      exact fun hm => hk ((h.map Prod.fst).mem_iff.mp hm)
  | some v =>
      have hmem : ∃ b ∈ E', b.1 = k := by
        have hne : ¬ toMap E' k = none := by simp [hk]
        rw [toMap_eq_none_iff, not_not] at hne
        exact List.mem_map.mp hne
      obtain ⟨b, hb, rfl⟩ := hmem
      rw [toMap_of_mem (hE.perm h) hb] at hk
      rw [toMap_of_mem hE (h.mem_iff.mpr hb), hk]

/-- Dropping a binding is unbinding its key. -/
theorem toMap_tail {b : κ × β} {E : List (κ × β)} (h : Distinct (b :: E)) :
    toMap E = Function.update (toMap (b :: E)) b.1 none := by
  have hnd : b.1 ∉ E.map Prod.fst := (List.nodup_cons.mp h).1
  rw [toMap_cons, Function.update_idem]
  funext k
  by_cases hk : k = b.1
  · subst hk
    rw [Function.update_self]
    exact toMap_eq_none_iff.mpr hnd
  · rw [Function.update_of_ne hk]

/-- The size of a map is the number of its bindings. -/
theorem card_toMap {E : List (κ × β)} (hE : Distinct E) : card (toMap E) = E.length := by
  have hset : {k | toMap E k ≠ none} = ((E.map Prod.fst).toFinset : Set κ) := by
    ext k
    rw [List.coe_toFinset]
    show ¬ toMap E k = none ↔ k ∈ E.map Prod.fst
    rw [toMap_eq_none_iff, not_not]
  rw [card, hset, Set.ncard_coe_finset, List.toFinset_card_of_nodup hE, List.length_map]

end KeyedMap
