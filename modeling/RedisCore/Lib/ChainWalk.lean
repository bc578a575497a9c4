/-
# `RedisCore.Lib.ChainWalk` — walking through chains that change under the walk

A walk goes through a list of chains, one chain after the other.  All it remembers is how
many chains it has entered and which element it returns next; it finds the one after that
by following the element itself.  `left` is what such a walk still returns.

The chains may change between two steps as long as the next element stays: `left_filter`
compares what is left before and after, up to what was put in and taken out.
-/
import Mathlib.Data.List.Flatten
import Mathlib.Data.List.Nodup
import Mathlib.Data.List.TakeWhile

namespace ChainWalk

variable {ι : Type}

/-- The chain from an element on. -/
def since [DecidableEq ι] (c : List ι) : Option ι → List ι
  | none => []
  | some a => c.dropWhile (· ≠ a)

/-- The elements of all chains but the first `i`. -/
def ahead (cs : List (List ι)) (i : Nat) : List ι := (cs.drop i).flatten

/-- What is left of a walk that has entered `i` chains and returns `next` next. -/
def left [DecidableEq ι] (cs : List (List ι)) (i : Nat) (next : Option ι) : List ι :=
  since (cs.getD (i - 1) []) next ++ ahead cs i

/-- The element after `a` in a chain; `none` where `a` is not in it. -/
def succ? [DecidableEq ι] (c : List ι) (a : ι) : Option (Option ι) :=
  match c.dropWhile (· ≠ a) with
  | [] => none
  | _ :: rest => some rest.head?

/-- The element after `a` in its chain. -/
def follow [DecidableEq ι] (cs : List (List ι)) (a : ι) : Option (Option ι) := cs.findSome? (succ? · a)

/-! ## One chain -/

section OneChain

variable [DecidableEq ι]

theorem since_head? (c : List ι) : since c c.head? = c := by
  cases c with
  | nil => rfl
  | cons a c => simp [since]

theorem dropWhile_ne_append {l rest : List ι} {a : ι} (h : a ∉ l) :
    (l ++ a :: rest).dropWhile (· ≠ a) = a :: rest := by
  induction l with
  | nil => simp
  | cons b l ih =>
      obtain ⟨hb, hl⟩ := not_or.mp (fun hm => h (List.mem_cons.mpr hm))
      have hne : decide (b ≠ a) = true := by simpa using fun heq : b = a => hb heq.symm
      rw [List.cons_append, List.dropWhile_cons, if_pos hne]
      exact ih hl

theorem dropWhile_ne_nil {c : List ι} {a : ι} (h : a ∉ c) : c.dropWhile (· ≠ a) = [] := by
  rw [List.dropWhile_eq_nil_iff]
  intro b hb
  have hne : b ≠ a := by
    rintro rfl
    exact h hb
  simpa using hne

theorem succ?_none {c : List ι} {a : ι} (h : a ∉ c) : succ? c a = none := by
  rw [succ?, dropWhile_ne_nil h]

/-- Standing at an element of a chain without repetition: the walk goes on with the rest. -/
theorem since_step {c : List ι} (hnd : c.Nodup) {a : ι} (ha : a ∈ c) :
    ∃ rest, since c (some a) = a :: rest ∧ succ? c a = some rest.head? ∧
      since c rest.head? = rest ∧ ∀ b, rest.head? = some b → b ∈ c := by
  obtain ⟨l, rest, rfl⟩ := List.append_of_mem ha
  obtain ⟨-, hrest, hdisj⟩ := List.nodup_append.mp hnd
  have hal : a ∉ l := fun h => hdisj a h a List.mem_cons_self rfl
  refine ⟨rest, dropWhile_ne_append hal, ?_, ?_, ?_⟩
  · rw [succ?, dropWhile_ne_append hal]
  · cases rest with
    | nil => rfl
    | cons b rest =>
        have hb : b ∉ l ++ [a] := by
          intro h
          rcases List.mem_append.mp h with h | h
          · exact hdisj b h b (by simp) rfl
          · rw [List.mem_singleton.mp h] at hrest
            exact (List.nodup_cons.mp hrest).1 List.mem_cons_self
        have happ : l ++ a :: b :: rest = (l ++ [a]) ++ b :: rest := by simp
        show (l ++ a :: b :: rest).dropWhile (· ≠ b) = b :: rest
        rw [happ]
        exact dropWhile_ne_append hb
  · intro b hb
    exact List.mem_append_right _ (List.mem_cons_of_mem _ (List.mem_of_head? hb))

end OneChain

/-! ## All chains -/

theorem ahead_of_lt {cs : List (List ι)} {i : Nat} (h : i < cs.length) :
    ahead cs i = cs.getD i [] ++ ahead cs (i + 1) := by
  unfold ahead
  rw [List.drop_eq_getElem_cons h, List.flatten_cons, List.getD_eq_getElem?_getD,
    List.getElem?_eq_getElem h]
  rfl

theorem ahead_of_ge {cs : List (List ι)} {i : Nat} (h : cs.length ≤ i) : ahead cs i = [] := by
  rw [ahead, List.drop_eq_nil_of_le h]
  rfl

section

variable [DecidableEq ι]

theorem left_none (cs : List (List ι)) (i : Nat) : left cs i none = ahead cs i := rfl

/-- Entering the next chain. -/
theorem left_enter {cs : List (List ι)} {i : Nat} (h : i < cs.length) :
    left cs (i + 1) (cs.getD i []).head? = ahead cs i := by
  rw [left, Nat.add_sub_cancel, since_head?, ahead_of_lt h]

/-- An element is followed in the chain that it is in. -/
theorem follow_eq {cs : List (List ι)} (hnd : cs.flatten.Nodup) {c : List ι} (hc : c ∈ cs) {a : ι}
    (ha : a ∈ c) : follow cs a = succ? c a := by
  induction cs with
  | nil => exact absurd hc List.not_mem_nil
  | cons c' cs ih =>
      rw [List.flatten_cons] at hnd
      obtain ⟨-, hnd', hdisj⟩ := List.nodup_append.mp hnd
      have hs : ∀ {c}, a ∈ c → ∃ b, succ? c a = some b := by
        intro c ha
        obtain ⟨l, rest, rfl, hl⟩ := List.eq_append_cons_of_mem ha
        exact ⟨rest.head?, by rw [succ?, dropWhile_ne_append hl]⟩
      unfold follow
      rw [List.findSome?_cons]
      rcases List.mem_cons.mp hc with rfl | hc
      · obtain ⟨b, hb⟩ := hs ha
        rw [hb]
      · have hno : a ∉ c' := by
          intro h
          exact hdisj a h a (List.mem_flatten.mpr ⟨c, hc, ha⟩) rfl
        rw [succ?_none hno]
        exact ih hnd' hc

/-- One step of the walk, at an element. -/
theorem left_step {cs : List (List ι)} (hnd : cs.flatten.Nodup) {i : Nat} (hi : i < cs.length)
    {a : ι} (ha : a ∈ cs.getD i []) :
    ∃ next rest, follow cs a = some next ∧ left cs (i + 1) (some a) = a :: rest ∧
      left cs (i + 1) next = rest ∧ ∀ b, next = some b → b ∈ cs.getD i [] := by
  have hc : cs.getD i [] ∈ cs := by
    rw [List.getD_eq_getElem?_getD, List.getElem?_eq_getElem hi]
    exact List.getElem_mem hi
  have hndc : (cs.getD i []).Nodup := (List.nodup_flatten.mp hnd).1 _ hc
  obtain ⟨rest, hsince, hsucc, hrest, hmem⟩ := since_step hndc ha
  refine ⟨rest.head?, rest ++ ahead cs (i + 1), ?_, ?_, ?_, hmem⟩
  · rw [follow_eq hnd hc ha, hsucc]
  · rw [left, Nat.add_sub_cancel, hsince, List.cons_append]
  · rw [left, Nat.add_sub_cancel, hrest]

/-- What is left are elements of the chains, each as often as there. -/
theorem left_sublist {cs : List (List ι)} {i : Nat} {next : Option ι} (h : next = none ∨ 0 < i) :
    (left cs i next).Sublist cs.flatten := by
  have hahead : ∀ j, (ahead cs j).Sublist cs.flatten := fun j => (List.drop_sublist j cs).flatten
  rcases h with rfl | hi
  · exact hahead i
  · obtain ⟨j, rfl⟩ : ∃ j, i = j + 1 := ⟨i - 1, by omega⟩
    have hsince : (since (cs.getD j []) next).Sublist (cs.getD j []) := by
      cases next with
      | none => exact List.nil_sublist _
      | some a => exact List.dropWhile_sublist _
    rw [left, Nat.add_sub_cancel]
    refine (hsince.append_right _).trans ?_
    by_cases hlt : j < cs.length
    · rw [← ahead_of_lt hlt]
      exact hahead j
    · rw [List.getD_eq_getElem?_getD, List.getElem?_eq_none (Nat.le_of_not_lt hlt)]
      exact hahead (j + 1)

/-- The next element is among them. -/
theorem mem_left {cs : List (List ι)} {i : Nat} {a : ι} (ha : a ∈ cs.getD (i - 1) []) :
    a ∈ left cs i (some a) := by
  obtain ⟨l, rest, hc, hl⟩ := List.eq_append_cons_of_mem ha
  refine List.mem_append_left _ ?_
  show a ∈ (cs.getD (i - 1) []).dropWhile (· ≠ a)
  rw [hc, dropWhile_ne_append hl]
  exact List.mem_cons_self

end

/-! ## Changing the chains -/

/-- Up to what was put in (which `p` sorts out) and taken out (which `q` does) the chains are
the same, and the new chains behind them are empty. -/
def Edited (p q : ι → Bool) (cs cs' : List (List ι)) : Prop :=
  ∃ k, cs'.map (List.filter p) = cs.map (List.filter q) ++ List.replicate k []

variable {p q : ι → Bool} {cs cs' : List (List ι)}

theorem since_filter [DecidableEq ι] (c : List ι) {a : ι} (ha : p a = true) :
    (since c (some a)).filter p = since (c.filter p) (some a) := by
  show (c.dropWhile (· ≠ a)).filter p = (c.filter p).dropWhile (· ≠ a)
  induction c with
  | nil => rfl
  | cons b c ih =>
      by_cases hb : b = a
      · subst hb
        simp [ha]
      · have hne : decide (b ≠ a) = true := by simpa using hb
        rw [List.dropWhile_cons, if_pos hne, ih]
        by_cases hp : p b = true
        · rw [List.filter_cons_of_pos hp, List.dropWhile_cons, if_pos hne]
        · rw [List.filter_cons_of_neg hp]

theorem ahead_filter (cs : List (List ι)) (i : Nat) (p : ι → Bool) :
    (ahead cs i).filter p = ahead (cs.map (List.filter p)) i := by
  unfold ahead
  rw [List.filter_flatten, ← List.map_drop]

theorem ahead_append_nil (cs : List (List ι)) (k i : Nat) :
    ahead (cs ++ List.replicate k []) i = ahead cs i := by
  unfold ahead
  rw [List.drop_append, List.flatten_append]
  simp

theorem Edited.getD (h : Edited p q cs cs') (i : Nat) :
    (cs'.getD i []).filter p = (cs.getD i []).filter q := by
  obtain ⟨k, h⟩ := h
  have hi := congrArg (fun l => l.getD i []) h
  simp only [List.getD_eq_getElem?_getD, List.getElem?_map, List.getElem?_append,
    List.length_map, List.getElem?_replicate] at hi ⊢
  by_cases hlt : i < cs.length
  · rw [if_pos hlt] at hi
    cases h' : cs'[i]? <;> cases h'' : cs[i]? <;> simp_all
  · rw [if_neg hlt] at hi
    rw [List.getElem?_eq_none (Nat.le_of_not_lt hlt)]
    cases h' : cs'[i]? with
    | none => rfl
    | some c =>
        rw [h'] at hi
        split at hi <;> simpa using hi

theorem Edited.ahead (h : Edited p q cs cs') (i : Nat) :
    (ChainWalk.ahead cs' i).filter p = (ChainWalk.ahead cs i).filter q := by
  obtain ⟨k, h⟩ := h
  rw [ahead_filter, ahead_filter, h, ahead_append_nil]

/-- **What is left of the walk**, when its next element stays. -/
theorem left_filter [DecidableEq ι] (h : Edited p q cs cs') (i : Nat) {next : Option ι}
    (hnext : ∀ a, next = some a → p a = true ∧ q a = true) :
    (left cs' i next).filter p = (left cs i next).filter q := by
  unfold left
  rw [List.filter_append, List.filter_append, h.ahead]
  congr 1
  cases next with
  | none => rfl
  | some a =>
      obtain ⟨hp, hq⟩ := hnext a rfl
      rw [since_filter _ hp, since_filter _ hq, h.getD]

theorem Edited.length_le (h : Edited p q cs cs') : cs.length ≤ cs'.length := by
  obtain ⟨k, h⟩ := h
  have := congrArg List.length h
  simp only [List.length_map, List.length_append, List.length_replicate] at this
  omega

/-- The next element is still where it was. -/
theorem Edited.mem (h : Edited p q cs cs') {i : Nat} {a : ι} (hq : q a = true)
    (ha : a ∈ cs.getD i []) : a ∈ cs'.getD i [] := by
  have hmem : a ∈ (cs'.getD i []).filter p := by
    rw [h.getD]
    exact List.mem_filter.mpr ⟨ha, hq⟩
  exact List.mem_of_mem_filter hmem

/-- Replacing a chain by one that is the same up to `p` and `q`. -/
theorem edited_set {i : Nat} {c : List ι} (hc : c.filter p = (cs.getD i []).filter q)
    (hother : ∀ j, j ≠ i → (cs.getD j []).filter p = (cs.getD j []).filter q) :
    Edited p q cs (cs.set i c) := by
  refine ⟨0, ?_⟩
  rw [List.replicate_zero, List.append_nil]
  refine List.ext_getElem? fun j => ?_
  rw [List.getElem?_map, List.getElem?_map, List.getElem?_set]
  by_cases hj : i = j
  · subst hj
    rw [if_pos rfl]
    by_cases hlt : i < cs.length
    · rw [if_pos hlt, List.getElem?_eq_getElem hlt, Option.map_some, Option.map_some, hc,
        List.getD_eq_getElem?_getD, List.getElem?_eq_getElem hlt]
      rfl
    · rw [if_neg hlt, List.getElem?_eq_none (Nat.le_of_not_lt hlt)]
      rfl
  · rw [if_neg hj]
    have ho := hother j (Ne.symm hj)
    rw [List.getD_eq_getElem?_getD] at ho
    cases hcj : cs[j]? with
    | none => rfl
    | some c' =>
        rw [hcj] at ho
        exact congrArg some ho

/-- Putting an element in front of a chain. -/
theorem edited_cons (cs : List (List ι)) (i : Nat) {a : ι} (ha : p a = false) :
    Edited p p cs (cs.set i (a :: cs.getD i [])) := by
  refine edited_set ?_ (fun _ _ => rfl)
  rw [List.filter_cons_of_neg (by simp [ha])]

/-- Taking an element out of its chain. -/
theorem edited_eraseIdx [DecidableEq ι] (hnd : cs.flatten.Nodup) {i j : Nat} {a : ι}
    (ha : (cs.getD i [])[j]? = some a) :
    Edited p (fun b => p b && decide (b ≠ a)) cs (cs.set i ((cs.getD i []).eraseIdx j)) := by
  obtain ⟨hj, hget⟩ := List.getElem?_eq_some_iff.mp ha
  have hlt : i < cs.length := by
    by_contra hge
    rw [List.getD_eq_getElem?_getD, List.getElem?_eq_none (Nat.le_of_not_lt hge)] at hj
    exact absurd hj (Nat.not_lt_zero _)
  have hsplit : cs.getD i [] = (cs.getD i []).take j ++ a :: (cs.getD i []).drop (j + 1) := by
    conv_lhs => rw [← List.take_append_drop j (cs.getD i []), List.drop_eq_getElem_cons hj, hget]
  have hchain : (cs.getD i []).Nodup := by
    rw [List.getD_eq_getElem?_getD, List.getElem?_eq_getElem hlt]
    exact (List.nodup_flatten.mp hnd).1 _ (List.getElem_mem hlt)
  refine edited_set ?_ ?_
  · rw [List.eraseIdx_eq_take_drop_succ]
    rw [hsplit] at hchain
    obtain ⟨-, hrest, hdisj⟩ := List.nodup_append.mp hchain
    have hno : ∀ b ∈ (cs.getD i []).take j ++ (cs.getD i []).drop (j + 1), b ≠ a := by
      intro b hb
      rcases List.mem_append.mp hb with hb | hb
      · exact hdisj b hb a List.mem_cons_self
      · rintro rfl
        exact (List.nodup_cons.mp hrest).1 hb
    have hkeep : ∀ l : List ι, (∀ b ∈ l, b ≠ a) →
        l.filter p = l.filter (fun b => p b && decide (b ≠ a)) := by
      intro l hl
      refine List.filter_congr fun b hb => ?_
      simp [hl b hb]
    conv_rhs => rw [hsplit]
    rw [List.filter_append, List.filter_append, List.filter_cons_of_neg (by simp),
      hkeep _ (fun b hb => hno b (List.mem_append_left _ hb)),
      hkeep _ (fun b hb => hno b (List.mem_append_right _ hb))]
  · intro k hk
    refine List.filter_congr fun b hb => ?_
    have hne : b ≠ a := by
      rintro rfl
      have hlt' : k < cs.length := by
        by_contra hge
        rw [List.getD_eq_getElem?_getD, List.getElem?_eq_none (Nat.le_of_not_lt hge)] at hb
        exact absurd hb List.not_mem_nil
      have hmem : b ∈ cs.getD i [] := List.mem_of_getElem? ha
      rw [List.getD_eq_getElem?_getD, List.getElem?_eq_getElem hlt'] at hb
      rw [List.getD_eq_getElem?_getD, List.getElem?_eq_getElem hlt] at hmem
      have hpair := List.pairwise_iff_getElem.mp (List.nodup_flatten.mp hnd).2
      rcases Nat.lt_or_gt_of_ne hk with hlt'' | hlt''
      · exact hpair k i hlt' hlt hlt'' hb hmem
      · exact hpair i k hlt hlt' hlt'' hmem hb
    simp [hne]

/-- New empty chains behind the others. -/
theorem Edited.append_left {k : Nat} (h : Edited p q (cs ++ List.replicate k []) cs') :
    Edited p q cs cs' := by
  obtain ⟨j, h⟩ := h
  refine ⟨k + j, ?_⟩
  rw [h, List.map_append, List.map_replicate, List.filter_nil, List.append_assoc,
    List.replicate_append_replicate]

theorem Edited.append_right (h : Edited p q cs cs') (k : Nat) :
    Edited p q cs (cs' ++ List.replicate k []) := by
  obtain ⟨j, h⟩ := h
  refine ⟨j + k, ?_⟩
  rw [List.map_append, h, List.map_replicate, List.filter_nil, List.append_assoc,
    List.replicate_append_replicate]

theorem Edited.refl (cs : List (List ι)) : Edited p p cs cs := ⟨0, by simp⟩

end ChainWalk
