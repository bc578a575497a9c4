/-
# `RedisCore.Lib.PrefixCode` — words that end where they end

A set of words is prefix free if the end of a word can be told from the word itself, whatever stands
behind it.  A stream of such words can be cut into words in one way only, and so can every part of
the stream that has arrived.
-/
import Mathlib.InformationTheory.Coding.UniquelyDecodable

namespace PrefixCode

variable {α : Type*} {S : Set (List α)} {ws vs : List (List α)} {a b x y : List α}

/-- No word is empty, and no word goes on where another one ends. -/
structure PrefixFree (S : Set (List α)) : Prop where
  nonempty : [] ∉ S
  split : ∀ {a b x y : List α}, a ∈ S → b ∈ S → a ++ x = b ++ y → a = b

/-- **The part that has arrived** is cut into a part of the words. -/
theorem PrefixFree.prefix_of_flatten (h : PrefixFree S) (hws : ∀ a ∈ ws, a ∈ S)
    (hvs : ∀ b ∈ vs, b ∈ S) (hpre : ws.flatten <+: vs.flatten) : ws <+: vs := by
  induction ws generalizing vs with
  | nil => exact List.nil_prefix
  | cons a ws ih =>
      have ha := hws a List.mem_cons_self
      cases vs with
      | nil =>
          rw [List.flatten_nil, List.prefix_nil, List.flatten_cons, List.append_eq_nil_iff] at hpre
          exact absurd (hpre.1 ▸ ha) h.nonempty
      | cons b vs =>
          have hb := hvs b List.mem_cons_self
          obtain ⟨rest, hrest⟩ := hpre
          rw [List.flatten_cons, List.flatten_cons, List.append_assoc] at hrest
          obtain rfl := h.split ha hb hrest
          refine List.cons_prefix_cons.mpr ⟨rfl, ?_⟩
          exact ih (fun c hc => hws c (List.mem_cons_of_mem _ hc))
            (fun c hc => hvs c (List.mem_cons_of_mem _ hc)) ⟨rest, List.append_cancel_left hrest⟩

theorem PrefixFree.uniquelyDecodable (h : PrefixFree S) : InformationTheory.UniquelyDecodable S := by
  intro ws vs hws hvs heq
  have hle := h.prefix_of_flatten hws hvs (heq ▸ List.prefix_refl _)
  have hge := h.prefix_of_flatten hvs hws (heq ▸ List.prefix_refl _)
  exact hle.eq_of_length (Nat.le_antisymm hle.length_le hge.length_le)

/-- What stands in front of the first delimiter. -/
theorem eq_of_delimited {d : α} (ha : d ∉ a) (hb : d ∉ b) (h : a ++ d :: x = b ++ d :: y) : a = b := by
  classical
  have hcut : ∀ {c z : List α}, d ∉ c → (c ++ d :: z).takeWhile (· ≠ d) = c := by
    intro c z hc
    rw [List.takeWhile_append_of_pos, List.takeWhile_cons_of_neg (by simp), List.append_nil]
    intro e he
    exact decide_eq_true fun heq => hc (heq ▸ he)
  rw [← hcut ha, h, hcut hb]

end PrefixCode
