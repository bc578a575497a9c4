/-
# `RedisCore.Sds.Split` — splitting at a separator and joining again (`sdssplitlen`, `sdsjoinsds`)

`sdssplitlen` goes through the bytes once.  Where it finds the separator it makes a token of
what it has passed since the last one, in an array that doubles in size when it has room for no
more than one.  The tokens are the pieces between the occurrences of the separator
(`Pieces.pieces`), and `sdsjoinsds` makes the same bytes of them.

The size of the array is an `int`.  From 5·2^28 it cannot be doubled, and the program stops;
whether it comes to that is a question of how often the separator occurs (`sdssplitlen_iff`).
-/
import Mathlib.Data.List.Forall2
import RedisCore.Lib.Pieces
import RedisCore.Sds.Cut

namespace RedisCore

namespace Sdshdr

open Pieces

/-! ## The code -/

/-- `slots *= 2`, and the array for so many pointers.  There is no block of 2^63 bytes or more:
`zrealloc` stops the program. -/
def growSlots (slots : Int) : Option Int :=
  let slots := CInt.toInt (slots * 2)
  if CInt.toULong (8 * slots) < 2 ^ 63 then some slots else none

/-- `(seplen == 1 && *(s+j) == sep[0]) || (memcmp(s+j,sep,seplen) == 0)` -/
def sepAt (s sep : Bytes) (j seplen : Nat) : Option Bool :=
  if j + seplen ≤ s.length ∧ seplen ≤ sep.length then
    some ((seplen == 1 && s[j]? == sep[0]?) || Splice.slice s j seplen == sep.take seplen)
  else none

/-- `tokens[elements] = sdsnewlen(s+start,n); elements++;`, where `tokens` are the elements
that the array has. -/
def addToken (slots : Int) (tokens : List Sdshdr) (s : Bytes) (start n : Nat)
    (junk : Nat → Nat → UInt8) : Option (List Sdshdr) :=
  if tokens.length < slots then do
    let token ← sdsnewlen (some (s.drop start)) n (junk tokens.length)
    some (tokens ++ [token])
  else none

/-- The `for` loop, at most so often: where the last token starts, the size of the array, and
the tokens. -/
def splitLoop (s : Bytes) (len : Int) (sep : Bytes) (seplen : Int) (junk : Nat → Nat → UInt8) :
    Nat → Nat → Nat → Int → List Sdshdr → Option (Nat × Int × List Sdshdr)
  | 0, _, _, _, _ => none
  | fuel + 1, j, start, slots, tokens =>
    if j < len - (seplen - 1) then do
      -- room for the next element and the final one
      let slots ← (if slots < tokens.length + 2 then growSlots slots else some slots : Option Int)
      if ← sepAt s sep j seplen.toNat then do
        let tokens ← addToken slots tokens s start (j - start) junk
        splitLoop s len sep seplen junk fuel (j + seplen.toNat) (j + seplen.toNat) slots tokens
      else splitLoop s len sep seplen junk fuel (j + 1) start slots tokens
    else some (start, slots, tokens)

/-- `sdssplitlen`; the inner `none` is the NULL that it returns. -/
def sdssplitlen (s : Bytes) (len : Int) (sep : Bytes) (seplen : Int) (junk : Nat → Nat → UInt8) :
    Option (Option (List Sdshdr)) :=
  if seplen < 1 ∨ len < 0 then some none
  else if len = 0 then some (some [])
  else do
    let (start, slots, tokens) ← splitLoop s len sep seplen junk (len.toNat + 1) 0 0 5 []
    let tokens ← addToken slots tokens s start (len.toNat - start) junk
    some (some tokens)

/-- The loop of `sdsjoinsds`. -/
def joinLoop (sep : Bytes) (junk : Nat → Nat → UInt8) :
    Nat → Sdshdr → List Sdshdr → Option Sdshdr
  | _, join, [] => some join
  | j, join, arg :: argv => do
    let join ← join.sdscatsds (arg.buf.take arg.sdslen) (junk (2 * j))
    let join ← (if argv ≠ [] then join.sdscatlen sep (junk (2 * j + 1)) else some join :
      Option Sdshdr)
    joinLoop sep junk (j + 1) join argv

def sdsjoinsds (argv : List Sdshdr) (sep : Bytes) (junk : Nat → Nat → UInt8) : Option Sdshdr := do
  joinLoop sep junk 1 (← sdsempty (junk 0)) argv

/-! ## The array -/

variable {s sep front cur l b spare : Bytes} {c : UInt8} {ts : List Bytes}
  {tokens : List Sdshdr} {junk : Nat → Nat → UInt8} {slots : Int} {n : Nat}

/-- The largest size that the array can have. -/
def slotsMax : Nat := 5 * 2 ^ 28

/-- The array has been doubled some times, and has room for one more element than it has. -/
def Room (slots : Int) (elements : Nat) : Prop :=
  ∃ k, k ≤ 28 ∧ slots = (5 * 2 ^ k : Nat) ∧ elements + 1 ≤ 5 * 2 ^ k

theorem slotsMax_eq : slotsMax = 1342177280 := rfl

/-- The array is doubled if there is no room for two. -/
theorem grow_room (hroom : Room slots n) (hn : n + 1 < slotsMax) :
    ∃ slots', (if slots < (n : Int) + 2 then growSlots slots else some slots) = some slots' ∧
      Room slots' n ∧ Room slots' (n + 1) := by
  obtain ⟨k, hk, rfl, hle⟩ := hroom
  have hmax := slotsMax_eq
  by_cases hfull : ((5 * 2 ^ k : Nat) : Int) < (n : Int) + 2
  · have hlt : k < 28 := by
      rcases Nat.lt_or_eq_of_le hk with hlt | rfl
      · exact hlt
      · omega
    have hpow : 2 ^ (k + 1) ≤ 2 ^ 28 := Nat.pow_le_pow_right (by decide) hlt
    have hdouble : 2 ^ (k + 1) = 2 * 2 ^ k := Nat.pow_succ'
    refine ⟨(5 * 2 ^ (k + 1) : Nat), ?_, ⟨k + 1, hlt, rfl, by omega⟩, ⟨k + 1, hlt, rfl, by omega⟩⟩
    have hint : CInt.toInt (((5 * 2 ^ k : Nat) : Int) * 2) = ((5 * 2 ^ (k + 1) : Nat) : Int) := by
      rw [CInt.toInt_eq (by omega) (by omega)]
      omega
    have hsize : CInt.toULong (8 * ((5 * 2 ^ (k + 1) : Nat) : Int)) < 2 ^ 63 := by
      have hcast : 8 * ((5 * 2 ^ (k + 1) : Nat) : Int) = ((8 * (5 * 2 ^ (k + 1)) : Nat) : Int) :=
        rfl
      rw [hcast, CInt.toULong_eq (by omega)]
      omega
    rw [if_pos hfull, growSlots, hint]
    exact if_pos hsize
  · rw [if_neg hfull]
    exact ⟨_, rfl, ⟨k, hk, rfl, hle⟩, ⟨k, hk, rfl, by omega⟩⟩

/-- The largest array cannot be doubled. -/
theorem grow_stops (hroom : Room slots n) (hn : n + 1 = slotsMax) :
    (if slots < (n : Int) + 2 then growSlots slots else some slots) = none := by
  obtain ⟨k, hk, rfl, hle⟩ := hroom
  have hmax := slotsMax_eq
  have hpow : 2 ^ k ≤ 2 ^ 28 := Nat.pow_le_pow_right (by decide) hk
  have hslots : 5 * 2 ^ k = 1342177280 := by omega
  rw [hslots, if_pos (by omega)]
  decide +kernel

/-- A token is made of the bytes that have been passed. -/
theorem addToken_spec (hs : s = front ++ (cur ++ l)) (hlen : s.length < 2 ^ 31)
    (hroom : Room slots tokens.length) (junk : Nat → Nat → UInt8) :
    ∃ token, addToken slots tokens s front.length cur.length junk = some (tokens ++ [token]) ∧
      token.Sound cur := by
  obtain ⟨k, -, rfl, hle⟩ := hroom
  have htoo : tooLong = 2 ^ 63 + 2 ^ 20 := rfl
  have hdrop : s.drop front.length = cur ++ l := by rw [hs, List.drop_left]
  have hcur : cur.length ≤ s.length := by
    rw [hs, List.length_append, List.length_append]
    omega
  obtain ⟨token, hrun, htoken⟩ := sdsnewlen_spec (some (s.drop front.length)) (n := cur.length)
    (by omega) (by
      intro bytes hb
      cases hb
      rw [hdrop, List.length_append]
      exact Nat.le_add_right _ _) (junk tokens.length)
  refine ⟨token, ?_, ?_⟩
  · rw [addToken, if_pos (by omega), hrun]
    rfl
  · have hcontent : newContent (some (s.drop front.length)) cur.length = cur := by
      rw [newContent, hdrop, List.take_left]
    exact (hcontent ▸ htoken).sound

/-- The separator is looked for where there are enough bytes left. -/
theorem sepAt_spec (hs : s = front ++ l) (hlen : sep.length ≤ l.length) :
    sepAt s sep front.length sep.length = some (decide (sep <+: l)) := by
  have hroom : front.length + sep.length ≤ s.length := by
    rw [hs, List.length_append]
    omega
  have hslice : Splice.slice s front.length sep.length = l.take sep.length := by
    rw [Splice.slice, hs, List.drop_left]
  have hmem : (l.take sep.length == sep) = decide (sep <+: l) := by
    rw [Bool.eq_iff_iff, beq_iff_eq, decide_eq_true_iff, List.prefix_iff_eq_take]
    exact eq_comm
  rw [sepAt, if_pos ⟨hroom, Nat.le_refl _⟩, hslice, List.take_length, hmem]
  congr 1
  -- the test for one byte says the same
  by_cases hp : sep <+: l
  · rw [decide_eq_true hp, Bool.or_true]
  · rw [decide_eq_false hp, Bool.or_false, Bool.and_eq_false_iff]
    by_cases hone : sep.length = 1
    · refine .inr ?_
      obtain ⟨a, rfl⟩ := List.length_eq_one_iff.mp hone
      obtain ⟨c, l, rfl⟩ : ∃ c l', l = c :: l' := List.exists_cons_of_length_pos hlen
      rw [hs, List.getElem?_append_right (Nat.le_refl _), Nat.sub_self]
      refine beq_eq_false_iff_ne.mpr (fun h => hp ?_)
      obtain rfl : c = a := Option.some.inj h
      exact ⟨l, rfl⟩
    · exact .inl (beq_eq_false_iff_ne.mpr hone)

/-! ## The loop -/

/-- Where the separator is, a token is made. -/
theorem splitLoop_hit (hsep : sep ≠ []) (hs : s = front ++ (cur ++ (sep ++ l)))
    (hlen : s.length < 2 ^ 31) (hroom : Room slots tokens.length)
    (hn : tokens.length + 1 < slotsMax) (junk : Nat → Nat → UInt8) :
    ∃ slots' token, token.Sound cur ∧ Room slots' (tokens ++ [token]).length ∧ ∀ fuel,
      splitLoop s s.length sep sep.length junk (fuel + 1) (front ++ cur).length front.length slots
          tokens =
        splitLoop s s.length sep sep.length junk fuel (front ++ cur ++ sep).length
          (front ++ cur ++ sep).length slots' (tokens ++ [token]) := by
  have hpos := List.length_pos_iff.mpr hsep
  have hlong : s.length = front.length + cur.length + sep.length + l.length := by
    rw [hs]
    simp only [List.length_append]
    omega
  obtain ⟨slots', hgrow, hroom', hroom''⟩ := grow_room hroom hn
  obtain ⟨token, hadd, htoken⟩ := addToken_spec hs hlen hroom' junk
  refine ⟨slots', token, htoken, by rwa [List.length_append], fun fuel => ?_⟩
  have hsplit : s = (front ++ cur) ++ (sep ++ l) := by rw [hs, List.append_assoc]
  have hat := sepAt_spec hsplit (show sep.length ≤ (sep ++ l).length by
    rw [List.length_append]; exact Nat.le_add_right _ _)
  rw [decide_eq_true (List.prefix_append sep l)] at hat
  have hcur : (front ++ cur).length - front.length = cur.length := by
    rw [List.length_append, Nat.add_sub_cancel_left]
  have hnext : (front ++ cur).length + sep.length = (front ++ cur ++ sep).length :=
    List.length_append.symm
  rw [splitLoop, if_pos (by rw [List.length_append]; omega), hgrow, Int.toNat_natCast, hcur, hnext]
  simp only [Option.bind_eq_bind, Option.bind_some, hat, if_true, hadd]

/-- Elsewhere the loop goes on by one byte. -/
theorem splitLoop_miss (hsep : sep ≠ []) (hs : s = front ++ (cur ++ c :: l))
    (hlong : sep.length ≤ (c :: l).length) (hmiss : ¬ sep <+: c :: l)
    (hroom : Room slots tokens.length) (hn : tokens.length + 1 < slotsMax)
    (junk : Nat → Nat → UInt8) :
    ∃ slots', Room slots' tokens.length ∧ ∀ fuel,
      splitLoop s s.length sep sep.length junk (fuel + 1) (front ++ cur).length front.length slots
          tokens =
        splitLoop s s.length sep sep.length junk fuel (front ++ (cur ++ [c])).length front.length
          slots' tokens := by
  have hpos := List.length_pos_iff.mpr hsep
  have hlen : s.length = front.length + cur.length + (c :: l).length := by
    rw [hs]
    simp only [List.length_append]
    omega
  obtain ⟨slots', hgrow, hroom', -⟩ := grow_room hroom hn
  refine ⟨slots', hroom', fun fuel => ?_⟩
  have hsplit : s = (front ++ cur) ++ c :: l := by rw [hs, List.append_assoc]
  have hat := sepAt_spec hsplit hlong
  rw [decide_eq_false hmiss] at hat
  have hnext : (front ++ cur).length + 1 = (front ++ (cur ++ [c])).length := by
    rw [← List.append_assoc, @List.length_append _ (front ++ cur)]
    rfl
  rw [splitLoop, if_pos (by rw [List.length_append]; omega), hgrow, Int.toNat_natCast, hnext]
  simp only [Option.bind_eq_bind, Option.bind_some, hat, Bool.false_eq_true, if_false]

/-- Where less is left than the separator, the loop stops. -/
theorem splitLoop_end (hs : s = front ++ (cur ++ l)) (hshort : l.length < sep.length)
    (junk : Nat → Nat → UInt8) (fuel : Nat) (slots : Int) (tokens : List Sdshdr) :
    splitLoop s s.length sep sep.length junk (fuel + 1) (front ++ cur).length front.length slots
      tokens = some (front.length, slots, tokens) := by
  have hlen : s.length = front.length + cur.length + l.length := by
    rw [hs]
    simp only [List.length_append]
    omega
  rw [splitLoop, if_neg (by rw [List.length_append]; omega)]

/-- The loop makes tokens of all pieces but the last one, if the array never becomes too
large. -/
theorem splitLoop_spec (hsep : sep ≠ []) (hlen : s.length < 2 ^ 31) (junk : Nat → Nat → UInt8)
    (hs : s = front ++ (cur ++ l)) (hroom : Room slots tokens.length)
    (htokens : List.Forall₂ Sound tokens ts)
    (hmax : l = [] ∨ tokens.length + occurrences sep l.dropLast + 1 < slotsMax)
    {fuel : Nat} (hfuel : l.length < fuel) :
    ∃ front' slots' tokens' ts' piece, splitLoop s s.length sep sep.length junk fuel
        (front ++ cur).length front.length slots tokens =
        some (front'.length, slots', tokens') ∧
      s = front' ++ piece ∧ Room slots' tokens'.length ∧ List.Forall₂ Sound tokens' (ts ++ ts') ∧
      piecesFrom sep 0 cur l = ts' ++ [piece] := by
  obtain ⟨fuel, rfl⟩ : ∃ k, fuel = k + 1 := ⟨fuel - 1, by omega⟩
  induction l using scan hsep generalizing front cur slots tokens ts fuel with
  | nil =>
      refine ⟨front, slots, tokens, [], cur, splitLoop_end hs (List.length_pos_iff.mpr hsep) _ _ _ _,
        by rw [hs, List.append_nil], hroom, by rwa [List.append_nil], rfl⟩
  | hit l ih =>
      have hn : tokens.length + 1 < slotsMax := by
        rcases hmax with hnil | hmax
        · exact absurd (List.append_eq_nil_iff.mp hnil).1 hsep
        · omega
      obtain ⟨slots₁, token, htoken, hroom₁, hrun⟩ := splitLoop_hit hsep hs hlen hroom hn junk
      obtain ⟨fuel, rfl⟩ : ∃ k, fuel = k + 1 := ⟨fuel - 1, by
        have hpos := List.length_pos_iff.mpr hsep
        rw [List.length_append] at hfuel
        omega⟩
      obtain ⟨front', slots', tokens', ts', piece, hrec, hs', hroom', htokens', hpieces⟩ :=
        ih (show s = (front ++ cur ++ sep) ++ ([] ++ l) by rw [hs]; simp) hroom₁
          (List.rel_append htokens (.cons htoken .nil))
          (by
            by_cases hl : l = []
            · exact .inl hl
            · refine .inr ?_
              have hmax := hmax.resolve_left (fun hnil => hl (List.append_eq_nil_iff.mp hnil).2)
              rw [occurrences_dropLast_append hsep hl] at hmax
              rw [List.length_append, List.length_singleton]
              omega)
          fuel (by rw [List.length_append] at hfuel; have := List.length_pos_iff.mpr hsep; omega)
      refine ⟨front', slots', tokens', cur :: ts', piece, ?_, hs', hroom', ?_, ?_⟩
      · rw [hrun]
        rw [List.append_nil] at hrec
        exact hrec
      · rwa [List.append_assoc] at htokens'
      · rw [piecesFrom_append hsep, pieces, hpieces]
        rfl
  | miss c l hmiss ih =>
      by_cases hlong : sep.length ≤ (c :: l).length
      · have hn : tokens.length + 1 < slotsMax := by
          have := hmax.resolve_left (List.cons_ne_nil c l)
          omega
        obtain ⟨slots₁, hroom₁, hrun⟩ := splitLoop_miss hsep hs hlong hmiss hroom hn junk
        obtain ⟨fuel, rfl⟩ : ∃ k, fuel = k + 1 := ⟨fuel - 1, by
          rw [List.length_cons] at hfuel
          omega⟩
        obtain ⟨front', slots', tokens', ts', piece, hrec, hs', hroom', htokens', hpieces⟩ :=
          ih (show s = front ++ ((cur ++ [c]) ++ l) by rw [hs]; simp) hroom₁ htokens
            (by
              by_cases hl : l = []
              · exact .inl hl
              · refine .inr ?_
                have hmax := hmax.resolve_left (List.cons_ne_nil c l)
                rwa [occurrences_dropLast_cons hmiss hl] at hmax)
            fuel (by rw [List.length_cons] at hfuel; omega)
        refine ⟨front', slots', tokens', ts', piece, (hrun _).trans hrec, hs', hroom', htokens', ?_⟩
        rw [piecesFrom_cons hmiss, hpieces]
      · have hshort : (c :: l).length < sep.length := Nat.lt_of_not_le hlong
        exact ⟨front, slots, tokens, [], cur ++ c :: l, splitLoop_end hs hshort _ _ _ _,
          hs, hroom, by rwa [List.append_nil], piecesFrom_of_short cur hshort⟩

/-- With a separator of one byte that occurs too often, the loop comes to an array that it
cannot double. -/
theorem splitLoop_stops {x : UInt8} (hlen : s.length < 2 ^ 31) (junk : Nat → Nat → UInt8)
    (hs : s = front ++ (cur ++ l)) (hl : l ≠ []) (hroom : Room slots tokens.length)
    (hle : tokens.length + 1 ≤ slotsMax)
    (hmax : slotsMax ≤ tokens.length + occurrences [x] l.dropLast + 1) (fuel : Nat) :
    splitLoop s s.length [x] 1 junk fuel (front ++ cur).length front.length slots tokens =
      none := by
  induction l generalizing front cur slots tokens fuel with
  | nil => exact absurd rfl hl
  | cons c l ih =>
      cases fuel with
      | zero => rfl
      | succ fuel =>
          by_cases hfull : tokens.length + 1 = slotsMax
          · have hj : (((front ++ cur).length : Nat) : Int) < (s.length : Int) - (1 - 1) := by
              rw [hs]
              simp only [List.length_append, List.length_cons]
              omega
            rw [splitLoop, if_pos hj, grow_stops hroom hfull]
            rfl
          have hn : tokens.length + 1 < slotsMax := by omega
          have hne : l ≠ [] := by
            rintro rfl
            exact absurd hmax (Nat.not_le_of_lt hn)
          have hone : [x] ≠ [] := List.cons_ne_nil x []
          by_cases hc : c = x
          · subst hc
            obtain ⟨slots', token, -, hroom', hrun⟩ :=
              splitLoop_hit hone (l := l) hs hlen hroom hn junk
            have hocc := occurrences_dropLast_append hone hne
            refine (hrun fuel).trans ?_
            have hrec := ih (show s = (front ++ cur ++ [c]) ++ ([] ++ l) by rw [hs]; simp) hne hroom'
              (by rw [List.length_append]; exact hn)
              (by
                rw [List.singleton_append] at hocc
                rw [hocc] at hmax
                rw [List.length_append, List.length_singleton]
                omega) fuel
            rwa [List.append_nil] at hrec
          · have hmiss : ¬ [x] <+: c :: l := fun h => hc (List.cons_prefix_cons.mp h).1.symm
            obtain ⟨slots', hroom', hrun⟩ := splitLoop_miss hone hs
              (show [x].length ≤ (c :: l).length by simp) hmiss hroom hn junk
            refine (hrun fuel).trans ?_
            exact ih (show s = front ++ ((cur ++ [c]) ++ l) by rw [hs]; simp) hne hroom' hle
              (by rwa [occurrences_dropLast_cons hmiss hne] at hmax) fuel

/-! ## Splitting and joining -/

/-- The tokens are put together again. -/
theorem joinLoop_spec (hts : List.Forall₂ Sound tokens ts) {join : Sdshdr} (hj : join.Holds b spare)
    (hlen : b.length + (sep.intercalate ts).length < 2 ^ 63) (junk : Nat → Nat → UInt8) (j : Nat) :
    ∃ join' spare', joinLoop sep junk j join tokens = some join' ∧
      join'.Holds (b ++ sep.intercalate ts) spare' := by
  induction hts generalizing join b spare j with
  | nil => exact ⟨join, spare, rfl, by rwa [List.intercalate_nil, List.append_nil]⟩
  | @cons token t tokens ts htoken hts ih =>
      by_cases hlast : tokens = []
      · subst hlast
        cases hts
        rw [List.intercalate_singleton] at hlen ⊢
        obtain ⟨join₁, spare₁, hcat, hj₁⟩ := sdscatlen_holds hj hlen (junk (2 * j))
        refine ⟨join₁, spare₁, ?_, hj₁⟩
        rw [joinLoop, sdscatsds, htoken.content, hcat]
        rfl
      · have hne : ts ≠ [] := by
          rintro rfl
          exact hlast (List.forall₂_nil_right_iff.mp hts)
        rw [List.intercalate_cons_of_ne_nil hne, List.length_append, List.length_append] at hlen
        obtain ⟨join₁, spare₁, hcat, hj₁⟩ := sdscatlen_holds hj (t := t) (by omega) (junk (2 * j))
        obtain ⟨join₂, spare₂, hcat₂, hj₂⟩ := sdscatlen_holds hj₁ (t := sep)
          (by rw [List.length_append]; omega) (junk (2 * j + 1))
        obtain ⟨join', spare', hrec, hj'⟩ := ih hj₂
          (by rw [List.length_append, List.length_append]; omega) (j + 1)
        refine ⟨join', spare', ?_, ?_⟩
        · rw [joinLoop, sdscatsds, htoken.content, hcat]
          simp only [Option.bind_eq_bind, Option.bind_some, if_pos hlast, hcat₂]
          exact hrec
        · rwa [List.intercalate_cons_of_ne_nil hne, ← List.append_assoc, ← List.append_assoc]

/-- What `tokens` are to be for `s`: strings without `sep`, one more of them than there are
occurrences of it, that make `s` again. -/
structure Splits (s sep : Bytes) (tokens : List Sdshdr) : Prop where
  without : ∀ token ∈ tokens, ∃ t, token.Sound t ∧ ¬ sep <:+: t
  count : tokens.length = occurrences sep s + 1
  joined : ∀ junk, ∃ join, sdsjoinsds tokens sep junk = some join ∧ join.Sound s

theorem exists_piece (h : List.Forall₂ Sound tokens ts) :
    ∀ token ∈ tokens, ∃ t ∈ ts, token.Sound t := by
  induction h with
  | nil => exact fun token ht => nomatch ht
  | cons htoken _ ih =>
      intro token ht
      rcases List.mem_cons.mp ht with rfl | ht
      · exact ⟨_, List.mem_cons_self, htoken⟩
      · obtain ⟨t, hmem, hsound⟩ := ih token ht
        exact ⟨t, List.mem_cons_of_mem _ hmem, hsound⟩

theorem Splits.of_pieces (hsep : sep ≠ []) (hlen : s.length < 2 ^ 31)
    (h : List.Forall₂ Sound tokens (pieces sep s)) : Splits s sep tokens := by
  refine ⟨fun token htoken => ?_, ?_, fun junk => ?_⟩
  · obtain ⟨t, hmem, hsound⟩ := exists_piece h token htoken
    exact ⟨t, hsound, not_infix_of_mem_pieces hsep t hmem⟩
  · rw [h.length_eq, length_pieces hsep]
  · obtain ⟨join, hempty, hj⟩ := sdsempty_holds (junk 0)
    obtain ⟨join', spare', hrun, hj'⟩ := joinLoop_spec h hj
      (by rw [intercalate_pieces hsep, List.length_nil]; omega) junk 1
    rw [intercalate_pieces hsep, List.nil_append] at hj'
    refine ⟨join', ?_, hj'.sound⟩
    rw [sdsjoinsds, hempty]
    exact hrun

theorem room_start : Room 5 ([] : List Sdshdr).length := ⟨0, Nat.zero_le _, rfl, by decide⟩

/-- The array stays small enough: the tokens are the pieces. -/
theorem sdssplitlen_pieces (hs : s ≠ []) (hsep : sep ≠ []) (hlen : s.length < 2 ^ 31)
    (hmax : occurrences sep s.dropLast + 1 < slotsMax) (junk : Nat → Nat → UInt8) :
    ∃ tokens, sdssplitlen s s.length sep sep.length junk = some (some tokens) ∧
      List.Forall₂ Sound tokens (pieces sep s) := by
  have hpos := List.length_pos_iff.mpr hs
  have hseppos := List.length_pos_iff.mpr hsep
  obtain ⟨front, slots, tokens, ts, piece, hrun, hs', hroom, htokens, hpieces⟩ :=
    splitLoop_spec hsep hlen junk (show s = [] ++ ([] ++ s) from rfl) room_start (.nil)
      (.inr (by simpa using hmax)) (Nat.lt_succ_self s.length)
  obtain ⟨token, hadd, htoken⟩ := addToken_spec
    (show s = front ++ (piece ++ []) by rw [hs', List.append_nil]) hlen hroom junk
  have hpiece : s.length - front.length = piece.length := by
    rw [hs', List.length_append, Nat.add_sub_cancel_left]
  refine ⟨tokens ++ [token], ?_, ?_⟩
  · rw [sdssplitlen, if_neg (by omega), if_neg (by omega), Int.toNat_natCast]
    have hrun' : splitLoop s s.length sep sep.length junk (s.length + 1) 0 0 5 [] =
        some (front.length, slots, tokens) := hrun
    rw [hrun']
    simp only [Option.bind_eq_bind, Option.bind_some, hpiece, hadd]
  · rw [pieces, hpieces]
    exact List.rel_append htokens (.cons htoken .nil)

/-- The array becomes too large: the program stops. -/
theorem sdssplitlen_stops (hsep : sep ≠ []) (hlen : s.length < 2 ^ 31)
    (hmax : slotsMax ≤ occurrences sep s.dropLast + 1) (junk : Nat → Nat → UInt8) :
    sdssplitlen s s.length sep sep.length junk = none := by
  have hslots := slotsMax_eq
  have hfit := occurrences_mul_le hsep s.dropLast
  rw [List.length_dropLast] at hfit
  have hne : s ≠ [] := by
    rintro rfl
    rw [List.dropLast_nil, occurrences_nil] at hmax
    omega
  have hpos := List.length_pos_iff.mpr hne
  -- only a separator of one byte can occur so often
  have hone : sep.length = 1 := by
    have hseppos := List.length_pos_iff.mpr hsep
    by_contra hmore
    have htwo := Nat.mul_le_mul_left (occurrences sep s.dropLast) (show 2 ≤ sep.length by omega)
    omega
  obtain ⟨x, rfl⟩ := List.length_eq_one_iff.mp hone
  have hstop := splitLoop_stops (x := x) hlen junk (show s = [] ++ ([] ++ s) from rfl) hne
    room_start (by decide) (by simpa using hmax) (s.length + 1)
  have hstop' : splitLoop s s.length [x] 1 junk (s.length + 1) 0 0 5 [] = none := hstop
  rw [sdssplitlen, List.length_singleton, if_neg (by omega), if_neg (by omega), Int.toNat_natCast,
    Int.natCast_one, hstop']
  rfl

/-- **`sdssplitlen`** splits a string at the separator, and **`sdsjoinsds`** joins the tokens
again, exactly when the separator occurs less than 5·2^28 - 1 times before the last byte. -/
theorem sdssplitlen_iff (hs : s ≠ []) (hsep : sep ≠ []) (hlen : s.length < 2 ^ 31)
    (junk : Nat → Nat → UInt8) :
    (∃ tokens, sdssplitlen s s.length sep sep.length junk = some (some tokens) ∧
        Splits s sep tokens) ↔ occurrences sep s.dropLast < 5 * 2 ^ 28 - 1 := by
  have hslots := slotsMax_eq
  constructor
  · rintro ⟨tokens, hrun, -⟩
    by_contra hmax
    rw [sdssplitlen_stops hsep hlen (by omega) junk] at hrun
    exact nomatch hrun
  · intro hmax
    obtain ⟨tokens, hrun, htokens⟩ := sdssplitlen_pieces hs hsep hlen (by omega) junk
    exact ⟨tokens, hrun, Splits.of_pieces hsep hlen htokens⟩

/-- A separator that overlaps itself, and occurs at the end too. -/
theorem sdssplitlen_iff_overlap :
    (∃ tokens, sdssplitlen [97, 0, 97, 0, 97, 97, 0, 97] 8 [97, 0, 97] 3 (fun _ _ => 0) =
        some (some tokens) ∧ Splits [97, 0, 97, 0, 97, 97, 0, 97] [97, 0, 97] tokens) ↔
      occurrences [97, 0, 97] ([97, 0, 97, 0, 97, 97, 0, 97] : Bytes).dropLast < 5 * 2 ^ 28 - 1 :=
  sdssplitlen_iff (by decide) (by decide) (by decide) _

/-- 5·2^28 commas. -/
theorem sdssplitlen_commas : ¬ ∃ tokens,
    sdssplitlen (List.replicate 1342177280 44) 1342177280 [44] 1 (fun _ _ => 0) =
      some (some tokens) ∧ Splits (List.replicate 1342177280 44) [44] tokens := by
  rintro ⟨tokens, hrun, -⟩
  generalize hn : 1342177280 = n at hrun
  have hstop := sdssplitlen_stops (s := List.replicate n 44) (List.cons_ne_nil 44 [])
    (by rw [List.length_replicate]; omega)
    (by rw [List.dropLast_replicate, occurrences_replicate, slotsMax_eq]; omega) (fun _ _ => 0)
  rw [List.length_replicate, List.length_singleton] at hstop
  rw [← hn] at hrun hstop
  exact nomatch hstop.symm.trans hrun

end Sdshdr

end RedisCore
