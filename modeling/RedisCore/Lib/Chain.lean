/-
# `RedisCore.Lib.Chain` — singly linked lists in memory

`next` says what a cell points to, when there is such a cell.  `Chain next p xs q` says
that from the pointer `p` one comes through the cells `xs` to the pointer `q`; the lemmas
are what stays of a chain when a cell is written, and how a cell is taken out.
-/
import Mathlib.Data.List.Basic
import Mathlib.Logic.Function.Basic

namespace Linked

variable {ι : Type} {next next' : ι → Option (Option ι)} {p q r : Option ι} {xs ys zs : List ι}
  {x y : ι}

/-- The cells from a pointer to another one. -/
def Chain (next : ι → Option (Option ι)) : Option ι → List ι → Option ι → Prop
  | p, [], q => p = q
  | p, x :: xs, q => p = some x ∧ ∃ n, next x = some n ∧ Chain next n xs q

/-- Follow the pointers for at most so many cells. -/
def walk (next : ι → Option (Option ι)) : Nat → Option ι → List ι
  | 0, _ => []
  | _ + 1, none => []
  | fuel + 1, some x => x :: walk next fuel ((next x).getD none)

theorem Chain.append (h₁ : Chain next p xs q) (h₂ : Chain next q ys r) :
    Chain next p (xs ++ ys) r := by
  induction xs generalizing p with
  | nil =>
      cases h₁
      exact h₂
  | cons x xs ih =>
      obtain ⟨hp, n, hn, hrest⟩ := h₁
      exact ⟨hp, n, hn, ih hrest⟩

theorem chain_append : Chain next p (xs ++ ys) r ↔ ∃ q, Chain next p xs q ∧ Chain next q ys r := by
  constructor
  · intro h
    induction xs generalizing p with
    | nil => exact ⟨p, rfl, h⟩
    | cons x xs ih =>
        obtain ⟨hp, n, hn, hrest⟩ := h
        obtain ⟨q, hxs, hys⟩ := ih hrest
        exact ⟨q, ⟨hp, n, hn, hxs⟩, hys⟩
  · rintro ⟨q, hxs, hys⟩
    exact hxs.append hys

/-- The pointer at which a chain to the end starts. -/
theorem Chain.head (h : Chain next p xs none) : p = xs.head? := by
  cases xs with
  | nil => exact h
  | cons x xs => exact h.1

/-- A chain depends on its own cells only. -/
theorem Chain.congr (h : Chain next p xs q) (heq : ∀ x ∈ xs, next' x = next x) :
    Chain next' p xs q := by
  induction xs generalizing p with
  | nil => exact h
  | cons x xs ih =>
      obtain ⟨hp, n, hn, hrest⟩ := h
      exact ⟨hp, n, by rw [heq x List.mem_cons_self, hn],
        ih hrest (fun y hy => heq y (List.mem_cons_of_mem x hy))⟩

theorem Chain.isSome (h : Chain next p xs q) (hx : x ∈ xs) : ∃ n, next x = some n := by
  induction xs generalizing p with
  | nil => exact absurd hx List.not_mem_nil
  | cons y xs ih =>
      obtain ⟨-, n, hn, hrest⟩ := h
      rcases List.mem_cons.mp hx with rfl | hx
      · exact ⟨n, hn⟩
      · exact ih hrest hx

/-- What a cell of a chain to the end points to. -/
theorem Chain.next_eq (h : Chain next p (xs ++ x :: ys) none) : next x = some ys.head? := by
  obtain ⟨q, -, -, n, hn, hys⟩ := chain_append.mp h
  rw [hn, hys.head]

/-- The cell after another one is taken out. -/
theorem Chain.remove [DecidableEq ι] (h : Chain next p (xs ++ x :: y :: ys) none)
    (hnodup : (xs ++ x :: y :: ys).Nodup) :
    Chain (Function.update next x (some ys.head?)) p (xs ++ x :: ys) none := by
  obtain ⟨q, hxs, hq, n, hn, hy, m, hm, hys⟩ := chain_append.mp h
  obtain ⟨-, hnodup', hdisj⟩ := List.nodup_append.mp hnodup
  have hne : ∀ z ∈ xs, z ≠ x := fun z hz => hdisj z hz x List.mem_cons_self
  have hx : x ∉ ys := fun hmem =>
    (List.nodup_cons.mp hnodup').1 (List.mem_cons_of_mem y hmem)
  refine Chain.append (q := q) ?_ ⟨hq, ys.head?, by rw [Function.update_self], ?_⟩
  · exact hxs.congr (fun z hz => Function.update_of_ne (hne z hz) _ _)
  · rw [hys.head] at hys
    exact hys.congr (fun z hz =>
      Function.update_of_ne (show z ≠ x from fun he => hx (he ▸ hz)) _ _)

/-- Following the pointers gives the cells. -/
theorem Chain.walk (h : Chain next p xs none) {fuel : Nat} (hfuel : xs.length ≤ fuel) :
    walk next fuel p = xs := by
  induction xs generalizing p fuel with
  | nil =>
      cases h
      cases fuel <;> rfl
  | cons x xs ih =>
      obtain ⟨rfl, n, hn, hrest⟩ := h
      cases fuel with
      | zero => exact absurd hfuel (by simp)
      | succ fuel =>
          rw [Linked.walk, hn, Option.getD_some, ih hrest (Nat.le_of_succ_le_succ hfuel)]

end Linked
