/-
# `RedisCore.Dict.IteratorRuns` — a safe iteration returns every entry once

The iterator is a walk through the chains of `ht[0]` and then of `ht[1]`.  While it runs
`iterators` is not zero, so nothing moves from one table to the other: what the caller does
puts entries into chains, takes them out, or opens a second table behind the chains that are
there.  `ChainWalk` says what becomes of the entries that are still to come.
-/
import RedisCore.Dict.Iterator
import RedisCore.Dict.Refine
import Mathlib.Data.List.GetD

namespace RedisCore

open ChainWalk

variable {α β : Type} {t : DictType α} {d d' : Dict (α × Nat) β} {iter : DictIterator}

/-! ## The walk of an iterator -/

/-- The chains of both tables. -/
def Dict.chains (d : Dict (α × Nat) β) : List (List Nat) := d.ht0.addrs ++ d.ht1.addrs

/-- How many chains the iterator has entered. -/
def entered (d : Dict (α × Nat) β) (iter : DictIterator) : Nat :=
  (if iter.table then d.ht0.size else 0) + (iter.index + 1).toNat

/-- The element that the iterator follows. -/
def DictIterator.next (iter : DictIterator) : Option Nat := iter.entry.bind (fun _ => iter.nextEntry)

/-- The entries that the iterator has still to return. -/
def remaining (d : Dict (α × Nat) β) (iter : DictIterator) : List Nat :=
  left d.chains (entered d iter) iter.next

/-- The iterator stands in the tables, and its next element is in the chain that it is in. -/
structure Walking (d : Dict (α × Nat) β) (iter : DictIterator) : Prop where
  lower : -1 ≤ iter.index
  first : iter.table = false → iter.index + 1 ≤ d.ht0.size
  second : iter.table = true →
    dictIsRehashing d = true ∧ 0 ≤ iter.index ∧ iter.index + 1 ≤ d.ht1.size
  standing : iter.entry ≠ none → 0 ≤ iter.index
  next : ∀ a, iter.next = some a → a ∈ d.chains.getD (entered d iter - 1) []

theorem addrs_getD (ht : Dictht (α × Nat) β) (i : Nat) :
    ht.addrs.getD i [] = (ht.chain i).map DictEntry.addr := by
  rw [Dictht.addrs, Dictht.chain, List.getD_eq_getElem?_getD, List.getElem?_map,
    List.getD_eq_getElem?_getD]
  cases ht.table[i]? <;> rfl

theorem headAddr_eq (ht : Dictht (α × Nat) β) (i : Nat) :
    headAddr ht i = (ht.addrs.getD i []).head? := by
  rw [headAddr, addrs_getD, List.head?_map]

theorem length_addrs (h : Inv t.addressed d) :
    d.ht0.addrs.length = d.ht0.size ∧ d.ht1.addrs.length = d.ht1.size := by
  constructor
  · rw [Dictht.addrs, List.length_map, h.ht0.length]
  · rw [Dictht.addrs, List.length_map, h.ht1.length]

theorem length_chains (h : Inv t.addressed d) : d.chains.length = d.ht0.size + d.ht1.size := by
  rw [Dict.chains, List.length_append, (length_addrs h).1, (length_addrs h).2]

theorem chains_getD_first (h : Inv t.addressed d) {i : Nat} (hi : i < d.ht0.size) :
    d.chains.getD i [] = d.ht0.addrs.getD i [] := by
  have hi' : i < d.ht0.addrs.length := by rwa [(length_addrs h).1]
  rw [Dict.chains, List.getD_append _ _ _ _ hi']

theorem chains_getD_second (h : Inv t.addressed d) (i : Nat) :
    d.chains.getD (d.ht0.size + i) [] = d.ht1.addrs.getD i [] := by
  have hi : d.ht0.addrs.length ≤ d.ht0.size + i := by
    rw [(length_addrs h).1]
    exact Nat.le_add_right _ _
  rw [Dict.chains, List.getD_append_right _ _ _ _ hi, (length_addrs h).1, Nat.add_sub_cancel_left]

/-- The addresses of a dict, chain by chain. -/
theorem flatten_chains (d : Dict (α × Nat) β) : d.chains.flatten = d.addrs := by
  simp [Dict.chains, Dictht.addrs, Dict.addrs, Dict.entries, Dictht.entries, List.map_flatten]

/-- Counting the iterator does not change the tables. -/
def started (d : Dict (α × Nat) β) (iter : DictIterator) : Dict (α × Nat) β :=
  if iter.entry = none ∧ iter.index = -1 ∧ iter.table = false ∧ iter.safe = true then
    iteratorStart d
  else d

theorem started_eq (d : Dict (α × Nat) β) (iter : DictIterator) :
    ∃ n, started d iter = { d with iterators := n } := by
  unfold started
  split
  · exact ⟨_, rfl⟩
  · exact ⟨d.iterators, rfl⟩

/-- How a turn ends. -/
inductive Turned (d : Dict (α × Nat) β) (iter : DictIterator) : Prop where
  /-- Nothing is left. -/
  | ended (hnil : remaining d iter = [])
      (h : dictNextTurn d iter = (started d iter, { iter with index := iter.index + 1 }, true))
      (hentry : iter.entry = none)
  /-- The iterator stands at an entry. -/
  | standing (iter' : DictIterator) (a : Nat)
      (h : dictNextTurn d iter = (started d iter, iter', false)) (hentry : iter'.entry = some a)
      (hleft : remaining d iter = left d.chains (entered d iter') (some a))
      (hwalk : Walking d { iter' with nextEntry := some a }) (hindex : 0 ≤ iter'.index)
      (hsafe : iter'.safe = iter.safe)
  /-- The chain is at its end, or the next one is empty. -/
  | moved (iter' : DictIterator) (h : dictNextTurn d iter = (started d iter, iter', false))
      (hentry : iter'.entry = none) (hleft : remaining d iter = remaining d iter')
      (hwalk : Walking d iter') (hindex : 0 ≤ iter'.index) (hsafe : iter'.safe = iter.safe)
      (hless : d.chains.length - entered d iter' + iter'.entry.toList.length <
        d.chains.length - entered d iter + iter.entry.toList.length)

/-- Entering the next chain. -/
theorem turned_enter {iter' : DictIterator} (hentry : iter.entry = none)
    (hturn : dictNextTurn d iter = (started d iter, iter', false))
    (hpos : entered d iter' = entered d iter + 1) (hlt : entered d iter < d.chains.length)
    (hhead : iter'.entry = (d.chains.getD (entered d iter) []).head?)
    (hwalk : ∀ n, (iter'.entry = none ∨ n = iter'.entry) → Walking d { iter' with nextEntry := n })
    (hindex : 0 ≤ iter'.index) (hsafe : iter'.safe = iter.safe) : Turned d iter := by
  have hleft : remaining d iter = left d.chains (entered d iter') iter'.entry := by
    rw [remaining, DictIterator.next, hentry, hpos, hhead, left_enter hlt]
    rfl
  cases hc : iter'.entry with
  | some a =>
      refine .standing iter' a hturn hc ?_ ?_ hindex hsafe
      · rw [hleft, hc]
      · exact hwalk (some a) (Or.inr hc.symm)
  | none =>
      refine .moved iter' hturn hc ?_ (hwalk iter'.nextEntry (Or.inl hc)) hindex hsafe ?_
      · rw [hleft, hc, remaining, DictIterator.next, hc]
        rfl
      · rw [hc, hentry, hpos]
        simp only [Option.toList_none, List.length_nil]
        omega

theorem started_fields (d : Dict (α × Nat) β) (iter : DictIterator) :
    (started d iter).ht0 = d.ht0 ∧ (started d iter).ht1 = d.ht1 ∧
      (started d iter).rehashidx = d.rehashidx := by
  obtain ⟨n, hn⟩ := started_eq d iter
  rw [hn]
  exact ⟨rfl, rfl, rfl⟩

/-- The turn of an iterator that has to look for a bucket. -/
theorem dictNextTurn_none (hentry : iter.entry = none) : dictNextTurn d iter =
    if iter.index + 1 ≥ (if iter.table then d.ht1 else d.ht0).size then
      if dictIsRehashing d = true ∧ iter.table = false then
        (started d iter, { iter with table := true, index := 0, entry := headAddr d.ht1 0 }, false)
      else (started d iter, { iter with index := iter.index + 1 }, true)
    else (started d iter, { iter with
      index := iter.index + 1
      entry := headAddr (if iter.table then d.ht1 else d.ht0) (iter.index + 1).toNat }, false) := by
  have hstart : (if iter.index = -1 ∧ iter.table = false then
      if iter.safe = true then { d with iterators := d.iterators + 1 } else d
      else d) = started d iter := by
    unfold started
    simp only [hentry, true_and]
    by_cases h : iter.index = -1 ∧ iter.table = false
    · cases hs : iter.safe <;> simp [h, iteratorStart]
    · by_cases h' : iter.index = -1
      · have ht : iter.table ≠ false := fun ht => h ⟨h', ht⟩
        simp [h', ht]
      · simp [h']
  obtain ⟨n, hn⟩ := started_eq d iter
  unfold dictNextTurn
  simp only [hentry, hstart]
  rw [hn]
  rfl

/-- The head of the chain that is entered is in it. -/
theorem mem_of_next {iter' : DictIterator} {c : List Nat} {e n : Option Nat} {a : Nat}
    (hhead : e = c.head?) (hn : e = none ∨ n = e)
    (ha : DictIterator.next { iter' with entry := e, nextEntry := n } = some a) : a ∈ c := by
  cases e with
  | none => exact absurd ha (by simp [DictIterator.next])
  | some e =>
      rcases hn with hn | rfl
      · exact absurd hn (by simp)
      · obtain rfl : e = a := Option.some.inj ha
        exact List.mem_of_head? hhead.symm

/-- **What one turn does.** -/
theorem turned (h : Inv t.addressed d) (hw : Walking d iter) : Turned d iter := by
  have hlen := length_chains h
  cases hentry : iter.entry with
  | some e =>
      have hturn : dictNextTurn d iter = (started d iter, { iter with entry := iter.nextEntry }, false) := by
        unfold dictNextTurn started
        simp [hentry]
      have hindex : 0 ≤ iter.index := hw.standing (by
        rw [hentry]
        simp)
      cases hnext : iter.nextEntry with
      | some a =>
          have hit : iter.next = some a := by rw [DictIterator.next, hentry, hnext]; rfl
          rw [hnext] at hturn
          refine .standing _ a hturn rfl ?_ ?_ hindex rfl
          · rw [remaining, hit]
            rfl
          · refine ⟨hw.lower, hw.first, hw.second, fun _ => hindex, fun b hb => ?_⟩
            obtain rfl : a = b := Option.some.inj hb
            exact hw.next a hit
      | none =>
          have hit : iter.next = none := by rw [DictIterator.next, hentry, hnext]; rfl
          rw [hnext] at hturn
          refine .moved _ hturn rfl ?_ ?_ hindex rfl ?_
          · rw [remaining, hit]
            rfl
          · exact ⟨hw.lower, hw.first, hw.second, fun hb => absurd rfl hb,
              fun b hb => absurd hb (by simp [DictIterator.next])⟩
          · rw [hentry]
            exact Nat.lt_succ_self _
  | none =>
      have hnone : iter.next = none := by rw [DictIterator.next, hentry]; rfl
      have hturn := dictNextTurn_none (d := d) hentry
      have hlower := hw.lower
      cases htable : iter.table with
      | false =>
          have hfirst := hw.first htable
          have hpos : entered d iter = (iter.index + 1).toNat := by simp [entered, htable]
          simp only [htable, Bool.false_eq_true, if_false, and_true] at hturn
          by_cases hlt : iter.index + 1 < d.ht0.size
          · rw [if_neg (by omega)] at hturn
            have hpos' : ∀ e n, entered d ⟨false, iter.index + 1, iter.safe, e, n⟩ =
                entered d iter + 1 := by
              intro e n
              simp only [entered, htable, Bool.false_eq_true, if_false]
              omega
            have hhead : headAddr d.ht0 (iter.index + 1).toNat =
                (d.chains.getD (entered d iter) []).head? := by
              rw [headAddr_eq, hpos, chains_getD_first h (by omega)]
            refine turned_enter hentry hturn (hpos' _ _) (by omega) hhead (fun n hn => ?_)
              (by show 0 ≤ iter.index + 1; omega) rfl
            refine ⟨by show -1 ≤ iter.index + 1; omega, fun _ => ?_, fun hf => absurd hf (by simp),
              fun _ => by show 0 ≤ iter.index + 1; omega, fun a ha => ?_⟩
            · show iter.index + 1 + 1 ≤ _
              omega
            · rw [hpos', Nat.add_sub_cancel]
              exact mem_of_next hhead hn ha
          · rw [if_pos (by omega)] at hturn
            cases hr : dictIsRehashing d with
            | true =>
                rw [if_pos hr] at hturn
                have hpos' : ∀ e n, entered d ⟨true, 0, iter.safe, e, n⟩ = entered d iter + 1 := by
                  intro e n
                  simp only [entered, htable, Bool.false_eq_true, if_false, if_true]
                  omega
                have hidx : ∃ idx, d.rehashidx = some idx := Option.isSome_iff_exists.mp hr
                obtain ⟨idx, hidx⟩ := hidx
                have hne := h.ht1_size_ne hidx
                have hhead : headAddr d.ht1 0 = (d.chains.getD (entered d iter) []).head? := by
                  have he : entered d iter = d.ht0.size + 0 := by omega
                  rw [headAddr_eq, he, chains_getD_second h 0]
                refine turned_enter hentry hturn (hpos' _ _) (by omega) hhead (fun n hn => ?_)
                  (Int.le_refl 0) rfl
                refine ⟨by show (-1 : Int) ≤ 0; omega, fun hf => absurd hf (by simp), fun _ => ?_,
                  fun _ => Int.le_refl 0, fun a ha => ?_⟩
                · refine ⟨hr, Int.le_refl 0, ?_⟩
                  show (0 : Int) + 1 ≤ _
                  omega
                · rw [hpos', Nat.add_sub_cancel]
                  exact mem_of_next hhead hn ha
            | false =>
                rw [if_neg (by simp [hr])] at hturn
                have hzero : d.ht1.size = 0 := h.idle.mp (dictIsRehashing_eq_false.mp hr)
                have hge : d.chains.length ≤ entered d iter := by omega
                refine .ended ?_ (by rw [hturn, htable]) hentry
                rw [remaining, hnone, left_none, ahead_of_ge hge]
      | true =>
          obtain ⟨hr, hidx, hsecond⟩ := hw.second htable
          have hpos : entered d iter = d.ht0.size + (iter.index + 1).toNat := by
            simp [entered, htable]
          simp only [htable, if_true, Bool.true_eq_false, and_false, if_false] at hturn
          by_cases hlt : iter.index + 1 < d.ht1.size
          · rw [if_neg (by omega)] at hturn
            have hpos' : ∀ e n, entered d ⟨true, iter.index + 1, iter.safe, e, n⟩ =
                entered d iter + 1 := by
              intro e n
              simp only [entered, htable, if_true]
              omega
            have hhead : headAddr d.ht1 (iter.index + 1).toNat =
                (d.chains.getD (entered d iter) []).head? := by
              rw [headAddr_eq, hpos, chains_getD_second h]
            refine turned_enter hentry hturn (hpos' _ _) (by omega) hhead (fun n hn => ?_)
              (by show 0 ≤ iter.index + 1; omega) rfl
            refine ⟨by show -1 ≤ iter.index + 1; omega, fun hf => absurd hf (by simp), fun _ => ?_,
              fun _ => by show 0 ≤ iter.index + 1; omega, fun a ha => ?_⟩
            · refine ⟨hr, by show 0 ≤ iter.index + 1; omega, ?_⟩
              show iter.index + 1 + 1 ≤ _
              omega
            · rw [hpos', Nat.add_sub_cancel]
              exact mem_of_next hhead hn ha
          · rw [if_pos (by omega)] at hturn
            have hge : d.chains.length ≤ entered d iter := by omega
            refine .ended ?_ (by rw [hturn, htable]) hentry
            rw [remaining, hnone, left_none, ahead_of_ge hge]

/-- Following the element that the iterator stands at. -/
theorem standing_step (hnd : d.addrs.Nodup) {a : Nat}
    (hentry : iter.entry = some a) (hwalk : Walking d { iter with nextEntry := some a }) :
    ∃ next, entryNext d a = some next ∧
      left d.chains (entered d iter) (some a) = a :: remaining d { iter with nextEntry := next } ∧
      Walking d { iter with nextEntry := next } := by
  have hnext : ∀ n, DictIterator.next { iter with nextEntry := n } = n := by
    intro n
    rw [DictIterator.next, hentry]
    rfl
  have hindex : 0 ≤ iter.index := hwalk.standing (by
    show iter.entry ≠ none
    rw [hentry]
    simp)
  have hmem : a ∈ d.chains.getD (entered d iter - 1) [] := hwalk.next a (hnext (some a))
  obtain ⟨i, hi⟩ : ∃ i, entered d iter = i + 1 := ⟨entered d iter - 1, by unfold entered; omega⟩
  rw [hi, Nat.add_sub_cancel] at hmem
  have hlt : i < d.chains.length := by
    by_contra hge
    rw [List.getD_eq_getElem?_getD, List.getElem?_eq_none (Nat.le_of_not_lt hge)] at hmem
    exact absurd hmem List.not_mem_nil
  obtain ⟨next, rest, hfollow, hleft, hrest, hin⟩ :=
    left_step (by rwa [flatten_chains]) hlt hmem
  refine ⟨next, hfollow, ?_, hwalk.lower, hwalk.first, hwalk.second, hwalk.standing, ?_⟩
  · have hrem : remaining d { iter with nextEntry := next } = rest := by
      unfold remaining
      rw [hnext next]
      show left d.chains (entered d iter) next = rest
      rw [hi]
      exact hrest
    rw [hrem, hi, hleft]
  · intro b hb
    rw [hnext next] at hb
    show b ∈ d.chains.getD (entered d iter - 1) []
    rw [hi, Nat.add_sub_cancel]
    exact hin b hb

/-- **`dictNext`** answers with the first of the entries that are left, and leaves the others;
it follows no pointer to a freed entry. -/
theorem dictNextLoop_spec (hnd : d.addrs.Nodup) : ∀ (fuel : Nat) {d' : Dict (α × Nat) β}
    {iter : DictIterator}, (∃ n, d' = { d with iterators := n }) → Inv t.addressed d →
    Walking d iter → d.chains.length - entered d iter + iter.entry.toList.length < fuel →
    ∃ iter', dictNextLoop fuel d' iter = some (started d' iter, iter', (remaining d iter).head?) ∧
      iter'.safe = iter.safe ∧ 0 ≤ iter'.index ∧ iter'.entry = (remaining d iter).head? ∧
      ∀ a rest, remaining d iter = a :: rest → remaining d iter' = rest ∧ Walking d iter' := by
  intro fuel
  induction fuel with
  | zero => intro d' iter _ _ _ hf; exact absurd hf (Nat.not_lt_zero _)
  | succ fuel ih =>
      rintro d' iter ⟨n, rfl⟩ h hw hf
      have h' : Inv t.addressed { d with iterators := n } :=
        ⟨h.ht0, h.ht1, h.distinct, h.idle, h.drained, h.behind⟩
      have hw' : Walking { d with iterators := n } iter :=
        ⟨hw.lower, hw.first, hw.second, hw.standing, hw.next⟩
      unfold dictNextLoop
      cases turned h' hw' with
      | ended hnil hturn hentry =>
          have hnil' : remaining d iter = [] := hnil
          rw [hturn, hnil']
          refine ⟨_, rfl, rfl, ?_, hentry, fun a rest hr => absurd hr (by simp)⟩
          have := hw.lower
          show 0 ≤ iter.index + 1
          omega
      | standing iter' a hturn hentry hleft hwalk hindex hsafe =>
          obtain ⟨table, index, safe, entry, nextEntry⟩ := iter'
          obtain rfl : entry = some a := hentry
          have hwalk' : Walking d ⟨table, index, safe, some a, some a⟩ :=
            ⟨hwalk.lower, hwalk.first, hwalk.second, hwalk.standing, hwalk.next⟩
          obtain ⟨next, hfollow, hcons, hnext⟩ :=
            @standing_step _ _ d ⟨table, index, safe, some a, nextEntry⟩ hnd a rfl hwalk'
          have hrem : remaining d iter = a :: remaining d ⟨table, index, safe, some a, next⟩ :=
            hleft.trans hcons
          obtain ⟨m, hm⟩ := started_eq { d with iterators := n } iter
          have hfollow' : entryNext (started { d with iterators := n } iter) a = some next := by
            rw [hm]
            exact hfollow
          rw [hturn, hrem]
          simp only [hfollow', Option.map_some]
          refine ⟨_, rfl, hsafe, hindex, rfl, fun b rest hb => ?_⟩
          obtain ⟨-, rfl⟩ := List.cons.inj hb
          exact ⟨rfl, hnext⟩
      | moved iter' hturn hentry hleft hwalk hindex hsafe hless =>
          have hwalk' : Walking d iter' :=
            ⟨hwalk.lower, hwalk.first, hwalk.second, hwalk.standing, hwalk.next⟩
          have hless' : d.chains.length - entered d iter' + iter'.entry.toList.length < fuel := by
            have : d.chains.length - entered d iter' + iter'.entry.toList.length <
                d.chains.length - entered d iter + iter.entry.toList.length := hless
            omega
          have hleft' : remaining d iter = remaining d iter' := hleft
          obtain ⟨m, hm⟩ := started_eq { d with iterators := n } iter
          have hstart : started (started { d with iterators := n } iter) iter' =
              started { d with iterators := n } iter := by
            unfold started
            rw [if_neg]
            rintro ⟨-, hi, -⟩
            omega
          rw [hturn, hleft']
          simp only [hentry]
          obtain ⟨iter'', hloop, hrest⟩ := ih ⟨m, hm⟩ h hwalk' hless'
          rw [hstart] at hloop
          rw [hsafe] at hrest
          exact ⟨iter'', hloop, hrest⟩

theorem dictNext_spec (h : Inv t.addressed d) (hnd : d.addrs.Nodup) (hw : Walking d iter) :
    ∃ iter', dictNext d iter = some (started d iter, iter', (remaining d iter).head?) ∧
      iter'.safe = iter.safe ∧ 0 ≤ iter'.index ∧ iter'.entry = (remaining d iter).head? ∧
      ∀ a rest, remaining d iter = a :: rest → remaining d iter' = rest ∧ Walking d iter' := by
  refine dictNextLoop_spec hnd _ ⟨d.iterators, rfl⟩ h hw ?_
  rw [length_chains h]
  cases iter.entry <;> simp <;> omega

/-! ## What the caller's calls do to the chains -/

/-- The key objects of a dict. -/
def Dict.keys (d : Dict (α × Nat) β) : List (α × Nat) := d.entries.map DictEntry.key

theorem addrs_eq_keys (d : Dict (α × Nat) β) : d.addrs = d.keys.map Prod.snd := by
  rw [Dict.addrs, Dict.keys, List.map_map]
  rfl

/-- A change that no walk sees: values are set, or a second table is opened. -/
structure Quiet (t : DictType α) (d d' : Dict (α × Nat) β) : Prop where
  inv : Inv t.addressed d'
  iterators : d'.iterators = d.iterators
  chains : ∃ k, d'.chains = d.chains ++ List.replicate k []
  first : d'.ht0.size = d.ht0.size
  second : dictIsRehashing d = true → d'.ht1.size = d.ht1.size ∧ dictIsRehashing d' = true
  keys : d'.keys.Perm d.keys

/-- A change that a walk sees: it may put in one entry, at the address `n`, or take one out,
at the address `dead`. -/
structure Touched (t : DictType α) (n : Nat) (dead : Option Nat) (d d' : Dict (α × Nat) β) :
    Prop where
  inv : Inv t.addressed d'
  iterators : d'.iterators = d.iterators
  edited : Edited (fun a => decide (a < n)) (fun a => decide (a < n) && decide (some a ≠ dead))
    d.chains d'.chains
  first : d'.ht0.size = d.ht0.size
  second : dictIsRehashing d = true → d'.ht1.size = d.ht1.size ∧ dictIsRehashing d' = true
  keys : ∃ new : List (α × Nat), (∀ k ∈ new, k.2 = n) ∧ new.length ≤ 1 ∧
    d'.keys.Perm (new ++ d.keys.filter (fun k => decide (some k.2 ≠ dead)))

theorem Quiet.refl (h : Inv t.addressed d) : Quiet t d d :=
  ⟨h, rfl, ⟨0, by simp⟩, rfl, fun hr => ⟨rfl, hr⟩, List.Perm.refl _⟩

variable {n : Nat} {dead : Option Nat} {d₁ d₂ : Dict (α × Nat) β}

theorem Quiet.touched (h : Quiet t d d') : Touched t n none d d' where
  inv := h.inv
  iterators := h.iterators
  edited := by
    obtain ⟨k, hk⟩ := h.chains
    have hsame : (fun a : Nat => decide (a < n) && decide (some a ≠ none)) =
        fun a => decide (a < n) := by
      funext a
      simp
    rw [hk, hsame]
    exact (Edited.refl d.chains).append_right k
  first := h.first
  second := h.second
  keys := ⟨[], by simp, by simp, by simpa using h.keys⟩

theorem Quiet.trans_touched (h₁ : Quiet t d d₁) (h₂ : Touched t n dead d₁ d₂) :
    Touched t n dead d d₂ where
  inv := h₂.inv
  iterators := h₂.iterators.trans h₁.iterators
  edited := by
    obtain ⟨k, hk⟩ := h₁.chains
    have he := h₂.edited
    rw [hk] at he
    exact he.append_left
  first := h₂.first.trans h₁.first
  second hr := by
    obtain ⟨hs, hr₁⟩ := h₁.second hr
    obtain ⟨hs₂, hr₂⟩ := h₂.second hr₁
    exact ⟨hs₂.trans hs, hr₂⟩
  keys := by
    obtain ⟨new, hnew, hlen, hp⟩ := h₂.keys
    exact ⟨new, hnew, hlen, hp.trans ((h₁.keys.filter _).append_left new)⟩

theorem Touched.trans_quiet (h₁ : Touched t n dead d d₁) (h₂ : Quiet t d₁ d₂) :
    Touched t n dead d d₂ where
  inv := h₂.inv
  iterators := h₂.iterators.trans h₁.iterators
  edited := by
    obtain ⟨k, hk⟩ := h₂.chains
    rw [hk]
    exact h₁.edited.append_right k
  first := h₂.first.trans h₁.first
  second hr := by
    obtain ⟨hs, hr₁⟩ := h₁.second hr
    obtain ⟨hs₂, hr₂⟩ := h₂.second hr₁
    exact ⟨hs₂.trans hs, hr₂⟩
  keys := by
    obtain ⟨new, hnew, hlen, hp⟩ := h₁.keys
    exact ⟨new, hnew, hlen, h₂.keys.trans hp⟩

theorem addrs_setChain (ht : Dictht (α × Nat) β) (i : Nat) (c : List (DictEntry (α × Nat) β)) :
    (ht.setChain i c).addrs = ht.addrs.set i (c.map DictEntry.addr) := List.map_set

/-- Setting a value changes no address. -/
theorem addrs_setValAt (ht : Dictht (α × Nat) β) (i p : Nat) (v : β) :
    (ht.setValAt i p v).addrs = ht.addrs := by
  have hmap : ((ht.chain i).modify p (fun e => { e with val := v })).map DictEntry.addr =
      (ht.chain i).map DictEntry.addr := by
    refine List.ext_getElem? fun j => ?_
    rw [List.getElem?_map, List.getElem?_map, List.getElem?_modify]
    cases (ht.chain i)[j]? with
    | none => rfl
    | some e =>
        show some (DictEntry.addr (if p = j then { e with val := v } else e)) = some e.addr
        split <;> rfl
  rw [Dictht.setValAt, addrs_setChain, hmap, ← addrs_getD]
  refine List.ext_getElem? fun j => ?_
  rw [List.getElem?_set]
  split
  · rename_i hj
    subst hj
    split
    · rename_i hlt
      rw [List.getD_eq_getElem?_getD, List.getElem?_eq_getElem hlt]
      rfl
    · rename_i hge
      rw [List.getElem?_eq_none (Nat.le_of_not_lt hge)]
  · rfl

/-- `dictSetVal`. -/
theorem quiet_setVal (hl : t.addressed.Lawful) (h : Inv t.addressed d) {r : Ref}
    {e : DictEntry (α × Nat) β} (he : entryAt d r = some e) (v : β) :
    Quiet t d (dictSetVal d r v) := by
  obtain ⟨rest, hp, hinv, hp'⟩ := dictSetVal_spec hl h he v
  have hkeys : (dictSetVal d r v).keys.Perm d.keys :=
    (hp'.map DictEntry.key).trans (hp.map DictEntry.key).symm
  have hrest : (dictSetVal d r v).iterators = d.iterators ∧
      (dictSetVal d r v).chains = d.chains ∧ (dictSetVal d r v).ht0.size = d.ht0.size ∧
      (dictSetVal d r v).ht1.size = d.ht1.size ∧
      (dictSetVal d r v).rehashidx = d.rehashidx := by
    unfold dictSetVal
    split
    · refine ⟨rfl, ?_, rfl, rfl, rfl⟩
      rw [Dict.chains, addrs_setValAt]
      rfl
    · refine ⟨rfl, ?_, rfl, rfl, rfl⟩
      rw [Dict.chains, addrs_setValAt]
      rfl
  obtain ⟨h₁, h₂, h₃, h₄, h₅⟩ := hrest
  refine ⟨hinv, h₁, ⟨0, by rw [h₂]; simp⟩, h₃, fun hr => ⟨h₄, ?_⟩, hkeys⟩
  rw [dictIsRehashing, h₅]
  exact hr

theorem allocated.addressable (h : allocated d = true) : Addressable d := by
  simp only [allocated, Bool.and_eq_true, decide_eq_true_eq] at h
  exact ⟨Nat.lt_trans h.1 (by decide), Nat.lt_trans h.2 (by decide)⟩

/-- The automatic expansion, when there is a first table. -/
theorem quiet_expandIfNeeded (canResize : Bool) (h : Inv t.addressed d) (hne : d.ht0.size ≠ 0)
    (he : dictExpandIfNeeded canResize d = some d') (haddr : Addressable d') : Quiet t d d' := by
  obtain ⟨hsame, -⟩ := dictExpandIfNeeded_spec canResize h he haddr
  have hkeys : d'.keys.Perm d.keys := hsame.perm.map _
  have hexp : ∀ size, dictExpand d size = some d' → Quiet t d d' := by
    intro size hs
    obtain ⟨hr, -, m, hm, ⟨hnil, -⟩ | ⟨-, hd⟩⟩ := dictExpand_cases hs
    · have hlen := h.ht0.length
      rw [hnil] at hlen
      exact absurd hlen.symm hne
    · have hht1 : d.ht1.addrs = [] := by
        rw [Dictht.addrs, h.ht1.entries_nil (h.idle.mp hr)]
        rfl
      refine ⟨hsame.inv, hsame.iters, ⟨dictNextPower size, ?_⟩, by rw [hd], ?_, hkeys⟩
      · rw [Dict.chains, Dict.chains, hht1, hd, hm]
        simp [Dictht.addrs]
      · intro hr'
        rw [dictIsRehashing, hr] at hr'
        exact absurd hr' (by simp)
  have hid : d' = d → Quiet t d d' := by
    rintro rfl
    exact .refl h
  unfold dictExpandIfNeeded at he
  rw [if_neg hne] at he
  split_ifs at he
  · exact hid (Option.some.inj he).symm
  · exact hexp _ he
  · exact hid (Option.some.inj he).symm

/-- A rehashing step while iterators run. -/
theorem rehashStepIfNeeded_blocked {d : Dict α β} (hi : d.iterators ≠ 0) :
    rehashStepIfNeeded t d = d := by
  unfold rehashStepIfNeeded dictRehashStep
  rw [if_neg hi]
  split <;> rfl

/-- A chain of the first table, among all chains. -/
theorem chains_set_first (h : Inv t.addressed d) {i : Nat} (hi : i < d.ht0.size)
    {ht : Dictht (α × Nat) β} {c : List Nat} (hht : ht.addrs = d.ht0.addrs.set i c) :
    ({ d with ht0 := ht } : Dict (α × Nat) β).chains = d.chains.set i c := by
  show ht.addrs ++ d.ht1.addrs = (d.ht0.addrs ++ d.ht1.addrs).set i c
  rw [hht, List.set_append, if_pos (by rwa [(length_addrs h).1])]

theorem chains_set_second (h : Inv t.addressed d) {i : Nat} {ht : Dictht (α × Nat) β}
    {c : List Nat} (hht : ht.addrs = d.ht1.addrs.set i c) :
    ({ d with ht1 := ht } : Dict (α × Nat) β).chains = d.chains.set (d.ht0.size + i) c := by
  show d.ht0.addrs ++ ht.addrs = (d.ht0.addrs ++ d.ht1.addrs).set (d.ht0.size + i) c
  rw [hht, List.set_append, (length_addrs h).1, if_neg (by omega), Nat.add_sub_cancel_left]

theorem addrs_insertTop (ht : Dictht (α × Nat) β) (i : Nat) (e : DictEntry (α × Nat) β) :
    (ht.insertTop i e).addrs = ht.addrs.set i (e.addr :: ht.addrs.getD i []) := by
  show (ht.setChain i (e :: ht.chain i)).addrs = _
  rw [addrs_setChain, addrs_getD]
  rfl

theorem addrs_unlink (ht : Dictht (α × Nat) β) (i p : Nat) :
    (ht.unlink i p).addrs = ht.addrs.set i ((ht.addrs.getD i []).eraseIdx p) := by
  show (ht.setChain i ((ht.chain i).eraseIdx p)).addrs = _
  rw [addrs_setChain, addrs_getD, List.eraseIdx_map]

/-- A new entry in front of a chain. -/
theorem touched_insertTop (hl : t.addressed.Lawful) (h : Inv t.addressed d) (hne : d.ht0.size ≠ 0)
    {e : DictEntry (α × Nat) β} (he : e.addr = n)
    (hnew : ∀ x ∈ d.entries, t.addressed.keyCompare e.key x.key = false) :
    (dictIsRehashing d = true → Touched t n none d
      { d with ht1 := d.ht1.insertTop (d.ht1.index t.addressed e.key) e }) ∧
    (dictIsRehashing d = false → Touched t n none d
      { d with ht0 := d.ht0.insertTop (d.ht0.index t.addressed e.key) e }) := by
  obtain ⟨hsecond, hfirst⟩ := insertTop_spec hl h hne hnew
  have hsame : (fun a : Nat => decide (a < n) && decide (some a ≠ none)) =
      fun a => decide (a < n) := by
    funext a
    simp
  have hout : decide (n < n) = false := by simp
  have hkeys : ∀ d' : Dict (α × Nat) β, d'.entries.Perm (e :: d.entries) →
      ∃ new : List (α × Nat), (∀ k ∈ new, k.2 = n) ∧ new.length ≤ 1 ∧
        d'.keys.Perm (new ++ d.keys.filter (fun k => decide (some k.2 ≠ none))) := by
    intro d' hp
    refine ⟨[e.key], fun k hk => ?_, by simp, ?_⟩
    · rw [List.mem_singleton.mp hk]
      exact he
    · have hmap := hp.map DictEntry.key
      simpa [Dict.keys] using hmap
  constructor
  · intro hr
    obtain ⟨hinv, hp⟩ := hsecond hr
    refine ⟨hinv, rfl, ?_, rfl, fun _ => ⟨rfl, hr⟩, hkeys _ hp⟩
    rw [chains_set_second h (addrs_insertTop _ _ _), he, hsame, ← chains_getD_second h]
    exact edited_cons (p := fun a => decide (a < n)) _ _ hout
  · intro hr
    obtain ⟨hinv, hp⟩ := hfirst hr
    have hlt := h.ht0.index_lt hne e.key
    refine ⟨hinv, rfl, ?_, rfl, fun hr' => absurd hr' (by simp [hr]), hkeys _ hp⟩
    rw [chains_set_first h hlt (addrs_insertTop _ _ _), he, hsame, ← chains_getD_first h hlt]
    exact edited_cons (p := fun a => decide (a < n)) _ _ hout

/-- **`dictAddRaw`**: a bucket index that an `int` does not hold adds nothing. -/
theorem touched_addRaw (hl : t.addressed.Lawful) (hh : ∀ key, t.hashFunction key < 2 ^ 32)
    (canResize : Bool) (h : Inv t.addressed d) (hne : d.ht0.size ≠ 0) (hi : d.iterators ≠ 0)
    (key : α) (junk : β)
    (haddr : Addressable (dictAddRaw t.addressed canResize d (key, n) junk).1) :
    Touched t n none d (dictAddRaw t.addressed canResize d (key, n) junk).1 ∧
      ∀ r, (dictAddRaw t.addressed canResize d (key, n) junk).2 = some r →
        ∃ e, entryAt (dictAddRaw t.addressed canResize d (key, n) junk).1 r = some e := by
  have hblock := rehashStepIfNeeded_blocked (t := t.addressed) hi
  obtain ⟨d₂, hd₂⟩ := dictExpandIfNeeded_isSome canResize h
  have heq := dictAddRaw_eq (t := t.addressed) canResize (key, n) junk (hblock.symm ▸ hd₂)
  have hquiet : Addressable d₂ → Quiet t d d₂ := quiet_expandIfNeeded canResize h hne hd₂
  have hfail : dictAddRaw t.addressed canResize d (key, n) junk = (d₂, none) →
      Touched t n none d (dictAddRaw t.addressed canResize d (key, n) junk).1 ∧
      ∀ r, (dictAddRaw t.addressed canResize d (key, n) junk).2 = some r →
        ∃ e, entryAt (dictAddRaw t.addressed canResize d (key, n) junk).1 r = some e := by
    intro hres
    rw [hres] at haddr ⊢
    exact ⟨(hquiet haddr).touched, fun r hr => absurd hr (by simp)⟩
  have hindex : ∀ ht : Dictht (α × Nat) β, ht.index t.addressed (key, n) < 2 ^ 32 := fun ht =>
    Nat.lt_of_le_of_lt Nat.and_le_left (hh key)
  cases hloc : locate t.addressed d₂ (key, n) with
  | some r =>
      rw [hloc] at heq
      exact hfail heq
  | none =>
      rw [hloc] at heq
      cases hr : dictIsRehashing d₂ with
      | true =>
          simp only [hr, if_true] at heq
          cases hx : CInt.toInt (d₂.ht1.index t.addressed (key, n) : Nat) with
          | negSucc j =>
              rw [hx] at heq
              exact hfail heq
          | ofNat j =>
              rw [hx, CInt.toInt_ofNat_eq (hindex d₂.ht1) hx] at heq
              have haddr₂ : Addressable d₂ := by
                rw [heq] at haddr
                exact haddr
              have hq := hquiet haddr₂
              have hne₂ : d₂.ht0.size ≠ 0 := by rwa [hq.first]
              obtain ⟨idx, hidx⟩ := Option.isSome_iff_exists.mp hr
              have hins := (touched_insertTop (e := ⟨(key, n), junk⟩) hl hq.inv hne₂ rfl
                (locate_none hl hq.inv hloc)).1 hr
              rw [heq]
              refine ⟨hq.trans_touched hins, fun r hr => ?_⟩
              obtain rfl := Option.some.inj hr
              exact ⟨_, entryAt_insertTop hq.inv.ht1 (hq.inv.ht1_size_ne hidx) ⟨(key, n), junk⟩⟩
      | false =>
          simp only [hr, Bool.false_eq_true, if_false] at heq
          cases hx : CInt.toInt (d₂.ht0.index t.addressed (key, n) : Nat) with
          | negSucc j =>
              rw [hx] at heq
              exact hfail heq
          | ofNat j =>
              rw [hx, CInt.toInt_ofNat_eq (hindex d₂.ht0) hx] at heq
              have haddr₂ : Addressable d₂ := by
                rw [heq] at haddr
                exact haddr
              have hq := hquiet haddr₂
              have hne₂ : d₂.ht0.size ≠ 0 := by rwa [hq.first]
              have hins := (touched_insertTop (e := ⟨(key, n), junk⟩) hl hq.inv hne₂ rfl
                (locate_none hl hq.inv hloc)).2 hr
              rw [heq]
              refine ⟨hq.trans_touched hins, fun r hr => ?_⟩
              obtain rfl := Option.some.inj hr
              exact ⟨_, entryAt_insertTop hq.inv.ht0 hne₂ ⟨(key, n), junk⟩⟩

/-- Expanding and adding do not count iterators. -/
theorem dictExpandIfNeeded_iterators {d d' : Dict α β} (canResize : Bool)
    (he : dictExpandIfNeeded canResize d = some d') : d'.iterators = d.iterators := by
  have hexp : ∀ size, dictExpand d size = some d' → d'.iterators = d.iterators := by
    intro size hs
    obtain ⟨-, -, m, -, ⟨-, hd⟩ | ⟨-, hd⟩⟩ := dictExpand_cases hs <;> rw [hd]
  unfold dictExpandIfNeeded at he
  split_ifs at he
  · rw [Option.some.inj he]
  · exact hexp _ he
  · exact hexp _ he
  · rw [Option.some.inj he]

theorem dictAdd_iterators (canResize : Bool) (h : Inv t.addressed d) (hi : d.iterators ≠ 0)
    (key : α × Nat) (val junk : β) :
    (dictAdd t.addressed canResize d key val junk).1.iterators = d.iterators := by
  have hblock := rehashStepIfNeeded_blocked (t := t.addressed) hi
  obtain ⟨d₂, hd₂⟩ := dictExpandIfNeeded_isSome canResize h
  have hit := dictExpandIfNeeded_iterators canResize hd₂
  have hraw : (dictAddRaw t.addressed canResize d key junk).1.iterators = d.iterators := by
    rw [dictAddRaw_eq canResize key junk (hblock.symm ▸ hd₂)]
    split
    · split <;> exact hit
    · exact hit
  unfold dictAdd
  generalize dictAddRaw t.addressed canResize d key junk = r at hraw ⊢
  obtain ⟨d₁, _ | r⟩ := r
  · exact hraw
  · show (dictSetVal d₁ r val).iterators = _
    unfold dictSetVal
    split <;> exact hraw

/-- `dictFind`. -/
theorem dictFind_blocked {d : Dict α β} (hi : d.iterators ≠ 0) (key : α) :
    (dictFind t d key).1 = d := by
  rcases dictFind_fst (t := t) d key with hd | hd
  · exact hd
  · rw [hd, rehashStepIfNeeded_blocked hi]

theorem addressable_setVal {d : Dict α β} {r : Ref} {v : β} :
    Addressable (dictSetVal d r v) ↔ Addressable d := by
  unfold dictSetVal
  split <;> exact Iff.rfl

/-- `dictAdd`, and what `dictReplace` finds after it. -/
theorem touched_add (hl : t.addressed.Lawful) (hh : ∀ key, t.hashFunction key < 2 ^ 32)
    (canResize : Bool) (h : Inv t.addressed d) (hne : d.ht0.size ≠ 0) (hi : d.iterators ≠ 0)
    (key : α) (val junk : β)
    (haddr : Addressable (dictAdd t.addressed canResize d (key, n) val junk).1) :
    Touched t n none d (dictAdd t.addressed canResize d (key, n) val junk).1 := by
  unfold dictAdd at haddr ⊢
  have hraw := touched_addRaw (n := n) hl hh canResize h hne hi key junk
  generalize dictAddRaw t.addressed canResize d (key, n) junk = r at haddr hraw ⊢
  obtain ⟨d₁, _ | r⟩ := r
  · exact (hraw haddr).1
  · have haddr₁ : Addressable d₁ := addressable_setVal.mp haddr
    obtain ⟨htouched, hentry⟩ := hraw haddr₁
    obtain ⟨e, he⟩ := hentry r rfl
    exact htouched.trans_quiet (quiet_setVal hl htouched.inv he val)

/-- `dictReplace`. -/
theorem touched_replace (hl : t.addressed.Lawful) (hh : ∀ key, t.hashFunction key < 2 ^ 32)
    (canResize : Bool) (h : Inv t.addressed d) (hne : d.ht0.size ≠ 0) (hi : d.iterators ≠ 0)
    (key : α) (val junk : β)
    (haddr : Addressable (dictReplace t.addressed canResize d (key, n) val junk).1) :
    Touched t n none d (dictReplace t.addressed canResize d (key, n) val junk).1 := by
  unfold dictReplace at haddr ⊢
  have hadd := touched_add (n := n) hl hh canResize h hne hi key val junk
  have hiters := dictAdd_iterators canResize h hi (key, n) val junk
  generalize dictAdd t.addressed canResize d (key, n) val junk = r at haddr hadd hiters ⊢
  obtain ⟨d₁, ok⟩ := r
  cases ok with
  | true => exact hadd haddr
  | false =>
      simp only at haddr ⊢ hadd hiters
      have hblock := dictFind_blocked (t := t.addressed) (hiters ▸ hi) (key, n)
      have hfound := fun h₁ => (dictFind_spec (t := t.addressed) (d := d₁) hl h₁ (key, n)).2
      generalize dictFind t.addressed d₁ (key, n) = r at haddr hfound hblock ⊢
      obtain ⟨d₂, _ | r⟩ := r
      · obtain rfl : d₂ = d₁ := hblock
        exact hadd haddr
      · obtain rfl : d₂ = d₁ := hblock
        have htouched := hadd (addressable_setVal.mp haddr)
        obtain ⟨e, he, -⟩ := hfound htouched.inv
        exact htouched.trans_quiet (quiet_setVal hl htouched.inv he val)

/-- `dictReplaceRaw`. -/
theorem touched_replaceRaw (hl : t.addressed.Lawful) (hh : ∀ key, t.hashFunction key < 2 ^ 32)
    (canResize : Bool) (h : Inv t.addressed d) (hne : d.ht0.size ≠ 0) (hi : d.iterators ≠ 0)
    (key : α) (junk : β)
    (haddr : Addressable (dictReplaceRaw t.addressed canResize d (key, n) junk).1) :
    Touched t n none d (dictReplaceRaw t.addressed canResize d (key, n) junk).1 := by
  have hblock := dictFind_blocked (t := t.addressed) hi (key, n)
  unfold dictReplaceRaw at haddr ⊢
  generalize dictFind t.addressed d (key, n) = r at haddr hblock ⊢
  obtain ⟨d₁, _ | r⟩ := r
  · obtain rfl : d₁ = d := hblock
    exact (touched_addRaw hl hh canResize h hne hi key junk haddr).1
  · obtain rfl : d₁ = d := hblock
    exact (Quiet.refl h).touched

/-- The addresses of a dict are different, and lower than the next one. -/
structure Fresh (n : Nat) (d : Dict (α × Nat) β) : Prop where
  nodup : d.addrs.Nodup
  below : ∀ a ∈ d.addrs, a < n

theorem mem_addrs {a : Nat} : a ∈ d.addrs ↔ ∃ e ∈ d.entries, e.addr = a := List.mem_map

/-- Unlinking an entry. -/
theorem touched_unlink (hl : t.addressed.Lawful) (h : Inv t.addressed d) (hf : Fresh n d) {r : Ref}
    {e : DictEntry (α × Nat) β} (he : entryAt d r = some e) :
    Touched t n (some e.addr) d (if r.second then
        { d with ht1 := d.ht1.unlink r.bucket r.depth }
      else { d with ht0 := d.ht0.unlink r.bucket r.depth }) := by
  obtain ⟨d', hd', hinv, hp⟩ := unlink_spec hl h he
  have hpred : (fun a : Nat => decide (a < n) && decide (some a ≠ some e.addr)) =
      fun a => decide (a < n) && decide (a ≠ e.addr) := by
    funext a
    simp
  have hnd : d.chains.flatten.Nodup := by
    rw [flatten_chains]
    exact hf.nodup
  have hkeys : d'.keys.Perm (d.keys.filter (fun k => decide (some k.2 ≠ some e.addr))) := by
    have hnd' : (e.addr :: d'.addrs).Nodup := (hp.map DictEntry.addr).nodup hf.nodup
    have hstay : (d'.entries.map DictEntry.key).filter (fun k => decide (some k.2 ≠ some e.addr)) =
        d'.entries.map DictEntry.key := by
      refine List.filter_eq_self.mpr fun k hk => ?_
      obtain ⟨x, hx, rfl⟩ := List.mem_map.mp hk
      have hne : x.addr ≠ e.addr := by
        intro heq
        exact (List.nodup_cons.mp hnd').1 (heq ▸ List.mem_map_of_mem hx)
      simpa [DictEntry.addr] using hne
    have hfilter := (hp.map DictEntry.key).filter (fun k => decide (some k.2 ≠ some e.addr))
    rw [List.map_cons, List.filter_cons_of_neg (by simp [DictEntry.addr]), hstay] at hfilter
    exact hfilter.symm
  obtain ⟨second, i, p⟩ := r
  cases second with
  | true =>
      simp only [if_true] at hd' ⊢
      rw [← hd']
      have he' : (d.ht1.chain i)[p]? = some e := he
      refine ⟨hinv, by rw [hd'], ?_, by rw [hd'], fun hr => ⟨by rw [hd']; rfl, by rw [hd']; exact hr⟩,
        ⟨[], by simp, by simp, hkeys⟩⟩
      rw [hd', chains_set_second h (addrs_unlink _ _ _), ← chains_getD_second h, hpred]
      refine edited_eraseIdx (p := fun a => decide (a < n)) hnd ?_
      rw [chains_getD_second h, addrs_getD, List.getElem?_map, he']
      rfl
  | false =>
      simp only [Bool.false_eq_true, if_false] at hd' ⊢
      rw [← hd']
      have he' : (d.ht0.chain i)[p]? = some e := he
      have hlt : i < d.ht0.size := by
        rw [← h.ht0.length]
        exact lt_of_getElem?_chain he'
      refine ⟨hinv, by rw [hd'], ?_, by rw [hd']; rfl, fun hr => ⟨by rw [hd'], by rw [hd']; exact hr⟩,
        ⟨[], by simp, by simp, hkeys⟩⟩
      rw [hd', chains_set_first h hlt (addrs_unlink _ _ _), ← chains_getD_first h hlt, hpred]
      refine edited_eraseIdx (p := fun a => decide (a < n)) hnd ?_
      rw [chains_getD_first h hlt, addrs_getD, List.getElem?_map, he']
      rfl

/-- `dictDelete` takes out an entry whose key compares equal. -/
theorem touched_delete (hl : t.addressed.Lawful) (h : Inv t.addressed d) (hne : d.ht0.size ≠ 0)
    (hi : d.iterators ≠ 0) (hf : Fresh n d) (k : α) :
    ∃ dead, Touched t n dead d (dictDelete t.addressed d (k, n)).1 ∧
      ∀ a, dead = some a → ∃ e ∈ d.entries, e.addr = a ∧ t.keyCompare k e.key.1 = true := by
  have hblock := rehashStepIfNeeded_blocked (t := t.addressed) hi
  have hfound := locate_found hl h (k, n)
  unfold dictDelete
  rw [dictGenericDelete_eq hne, hblock]
  cases hloc : locate t.addressed d (k, n) with
  | none => exact ⟨none, (Quiet.refl h).touched, fun a ha => absurd ha (by simp)⟩
  | some r =>
      rw [hloc] at hfound
      obtain ⟨e, he, hk⟩ := hfound
      refine ⟨some e.addr, touched_unlink hl h hf he, fun a ha => ?_⟩
      exact ⟨e, mem_entries_of_entryAt he, Option.some.inj ha, hk⟩

/-- **Every call of the caller** between two calls of `dictNext`. -/
theorem touched_callerOp (hl : t.addressed.Lawful) (hh : ∀ key, t.hashFunction key < 2 ^ 32)
    (h : Inv t.addressed d) (hne : d.ht0.size ≠ 0) (hi : d.iterators ≠ 0) (hf : Fresh n d) (k : α)
    (op : IterOp α β) (haddr : Addressable (callerOp t d n k op)) :
    ∃ dead, Touched t n dead d (callerOp t d n k op) ∧
      ∀ a, dead = some a → ∃ e ∈ d.entries, e.addr = a ∧ t.keyCompare k e.key.1 = true := by
  have hnone : Touched t n none d (callerOp t d n k op) →
      ∃ dead, Touched t n dead d (callerOp t d n k op) ∧
        ∀ a, dead = some a → ∃ e ∈ d.entries, e.addr = a ∧ t.keyCompare k e.key.1 = true :=
    fun ht => ⟨none, ht, fun a ha => absurd ha (by simp)⟩
  have hfind : ∀ key, Touched t n none d (dictFind t.addressed d (key, n)).1 := by
    intro key
    rw [dictFind_blocked hi]
    exact (Quiet.refl h).touched
  cases op with
  | next => exact hnone (Quiet.refl h).touched
  | delete => exact touched_delete hl h hne hi hf k
  | find key => exact hnone (hfind key)
  | fetchValue key => exact hnone (hfind key)
  | add canResize key val junk => exact hnone (touched_add hl hh canResize h hne hi key val junk haddr)
  | addRaw canResize key junk =>
      exact hnone (touched_addRaw hl hh canResize h hne hi key junk haddr).1
  | replace canResize key val junk =>
      exact hnone (touched_replace hl hh canResize h hne hi key val junk haddr)
  | replaceRaw canResize key junk =>
      exact hnone (touched_replaceRaw hl hh canResize h hne hi key junk haddr)

/-! ## What the walk has still to return -/

theorem Walking.entered_pos (hw : Walking d iter) {a : Nat} (ha : iter.next = some a) :
    0 < entered d iter := by
  have hindex : 0 ≤ iter.index := hw.standing (by
    intro hnone
    rw [DictIterator.next, hnone] at ha
    exact absurd ha (by simp))
  unfold entered
  omega

theorem remaining_sublist (hw : Walking d iter) : (remaining d iter).Sublist d.addrs := by
  rw [← flatten_chains]
  refine left_sublist ?_
  cases hn : iter.next with
  | none => exact Or.inl rfl
  | some a => exact Or.inr (hw.entered_pos hn)

theorem next_mem_remaining (hw : Walking d iter) {a : Nat} (ha : iter.next = some a) :
    a ∈ remaining d iter := by
  unfold remaining
  rw [ha]
  exact mem_left (hw.next a ha)

/-- Fresh addresses stay fresh. -/
theorem Touched.fresh (ht : Touched t n dead d d') (hf : Fresh n d) : Fresh (n + 1) d' := by
  obtain ⟨new, hnew, hlen, hp⟩ := ht.keys
  have haddrs : d'.addrs.Perm (new.map Prod.snd ++
      (d.keys.filter (fun k => decide (some k.2 ≠ dead))).map Prod.snd) := by
    rw [addrs_eq_keys, ← List.map_append]
    exact hp.map Prod.snd
  have hold : ∀ a ∈ (d.keys.filter (fun k => decide (some k.2 ≠ dead))).map Prod.snd, a < n := by
    intro a ha
    obtain ⟨k, hk, rfl⟩ := List.mem_map.mp ha
    refine hf.below _ ?_
    rw [addrs_eq_keys]
    exact List.mem_map_of_mem (List.mem_of_mem_filter hk)
  have hnews : ∀ a ∈ new.map Prod.snd, a = n := by
    intro a ha
    obtain ⟨k, hk, rfl⟩ := List.mem_map.mp ha
    exact hnew k hk
  constructor
  · refine haddrs.nodup_iff.mpr (List.nodup_append.mpr ⟨?_, ?_, ?_⟩)
    · match new, hlen with
      | [], _ => exact List.nodup_nil
      | [k], _ => exact List.nodup_singleton _
    · have hnd := hf.nodup
      rw [addrs_eq_keys] at hnd
      exact hnd.sublist (List.filter_sublist.map _)
    · intro a ha b hb hab
      have h₁ := hnews a ha
      have h₂ := hold b hb
      omega
  · intro a ha
    rcases List.mem_append.mp (haddrs.mem_iff.mp ha) with ha | ha
    · rw [hnews a ha]
      exact Nat.lt_succ_self n
    · exact Nat.lt_succ_of_lt (hold a ha)

/-- An entry that was there before is the same entry. -/
theorem Touched.key_mem (ht : Touched t n dead d d') {e : DictEntry (α × Nat) β}
    (he : e ∈ d'.entries) (hlt : e.addr < n) :
    some e.addr ≠ dead ∧ ∃ e₀ ∈ d.entries, e₀.key = e.key := by
  obtain ⟨new, hnew, -, hp⟩ := ht.keys
  have hmem : e.key ∈ new ++ d.keys.filter (fun k => decide (some k.2 ≠ dead)) :=
    hp.mem_iff.mp (List.mem_map_of_mem he)
  rcases List.mem_append.mp hmem with hk | hk
  · have h₁ : e.addr = n := hnew _ hk
    omega
  · obtain ⟨hk, hne⟩ := List.mem_filter.mp hk
    obtain ⟨e₀, he₀, heq⟩ := List.mem_map.mp hk
    exact ⟨by simpa [DictEntry.addr] using hne, e₀, he₀, heq⟩

/-- **What is left after a call of the caller** is what was left, less the entry that was taken
out, and with the one that was put in somewhere. -/
theorem remaining_touched (ht : Touched t n dead d d') (hf : Fresh n d) (hw : Walking d iter)
    (hnext : ∀ a, iter.next = some a → some a ≠ dead) :
    Walking d' iter ∧ (remaining d' iter).filter (fun a => decide (a < n)) =
      (remaining d iter).filter (fun a => decide (some a ≠ dead)) := by
  have hentered : entered d' iter = entered d iter := by
    unfold entered
    rw [ht.first]
  have hlt : ∀ a, iter.next = some a → a < n := fun a ha =>
    hf.below a ((remaining_sublist hw).subset (next_mem_remaining hw ha))
  constructor
  · refine ⟨hw.lower, fun h₀ => ?_, fun h₁ => ?_, hw.standing, fun a ha => ?_⟩
    · rw [ht.first]
      exact hw.first h₀
    · obtain ⟨hr, hidx, hle⟩ := hw.second h₁
      obtain ⟨hs, hr'⟩ := ht.second hr
      rw [hs]
      exact ⟨hr', hidx, hle⟩
    · rw [hentered]
      refine ht.edited.mem ?_ (hw.next a ha)
      simp [hlt a ha, hnext a ha]
  · unfold remaining
    rw [hentered, left_filter ht.edited _ (fun a ha => by simp [hlt a ha, hnext a ha])]
    refine List.filter_congr fun a ha => ?_
    have : a < n := hf.below a ((remaining_sublist hw).subset ha)
    simp [this]

/-! ## Whole iterations -/

variable {s s' : IterState α β} {d₀ : Dict (α × Nat) β}

/-- The part of the dict the walk has not come to. -/
def IterState.toCome (s : IterState α β) : List Nat := if s.ended then [] else remaining s.d s.iter

/-- **The invariant** of an iteration of `d₀`. -/
structure Iterating (t : DictType α) (d₀ : Dict (α × Nat) β) (s : IterState α β) : Prop where
  inv : Inv t.addressed s.d
  fresh : Fresh s.fresh s.d
  safe : s.iter.safe = true
  counted : s.d.iterators =
    d₀.iterators + (if s.iter.index = -1 ∧ s.iter.table = false then 0 else 1)
  walking : s.ended = false → Walking s.d s.iter
  old : ∀ a, a ∈ d₀.addrs ∨ a ∈ s.returned → a < s.fresh
  once : s.returned.Nodup
  apart : ∀ a ∈ s.toCome, a ∉ s.returned
  covered : ∀ a ∈ d₀.addrs, a ∈ s.d.addrs → a ∈ s.returned ∨ a ∈ s.toCome
  /-- The entry returned last is not the next one, nor one with an equal key. -/
  current : ∀ k, s.current = some k → s.iter.entry ≠ none ∧
    ∀ a, s.iter.next = some a → ∀ e ∈ s.d.entries, e.addr = a → t.keyCompare k e.key.1 = false

theorem ended_of_entry (h : s.iter.entry ≠ none) : s.ended = false := by
  unfold IterState.ended
  cases he : s.iter.entry with
  | none => exact absurd he h
  | some a => rfl

theorem iterating_start (h : Inv t.addressed d) (hf : Fresh n d) :
    Iterating t d (startIteration d n) := by
  have hended : (startIteration d n).ended = false := rfl
  have hcome : (startIteration d n).toCome = d.addrs := by
    unfold IterState.toCome
    rw [hended, ← flatten_chains]
    rfl
  refine ⟨h, hf, rfl, by simp [startIteration, dictGetSafeIterator, dictGetIterator], fun _ => ?_,
    ?_, List.nodup_nil, fun _ _ => List.not_mem_nil, ?_, fun k hk => absurd hk (by simp [startIteration])⟩
  · refine ⟨Int.le_refl _, fun _ => ?_, fun hf => absurd hf (by simp [startIteration,
      dictGetSafeIterator, dictGetIterator]), fun hn => absurd rfl hn, fun a ha => ?_⟩
    · show (-1 : Int) + 1 ≤ _
      omega
    · exact absurd ha (by simp [startIteration, dictGetSafeIterator, dictGetIterator, DictIterator.next])
  · intro a ha
    rcases ha with ha | ha
    · exact hf.below a ha
    · exact absurd ha List.not_mem_nil
  · intro a ha _
    rw [hcome]
    exact Or.inr ha

theorem keyAt_some {a : Nat} {k : α} (h : keyAt d a = some k) :
    ∃ e ∈ d.entries, e.addr = a ∧ e.key.1 = k := by
  obtain ⟨e, he, hk⟩ := Option.map_eq_some_iff.mp h
  exact ⟨e, List.mem_of_find?_eq_some he, by simpa using List.find?_some he, hk⟩

/-- Entries with different addresses have different keys. -/
theorem keyCompare_of_addr (hl : t.addressed.Lawful) (h : Inv t.addressed d)
    {e e' : DictEntry (α × Nat) β} (he : e ∈ d.entries) (he' : e' ∈ d.entries)
    (hne : e.addr ≠ e'.addr) : t.keyCompare e.key.1 e'.key.1 = false := by
  by_contra hsame
  have heq := eq_of_distinct hl h.distinct he he' (Bool.not_eq_false _ |>.mp hsame)
  exact hne (by rw [heq])

/-- The iterator is counted when it is started, and only then. -/
theorem counted_started (h : Iterating t d₀ s) (hw : Walking s.d s.iter) :
    (started s.d s.iter).iterators = d₀.iterators + 1 := by
  have hc := h.counted
  unfold started
  by_cases hstart : s.iter.index = -1 ∧ s.iter.table = false
  · have hnone : s.iter.entry = none := by
      by_contra hne
      have := hw.standing hne
      omega
    rw [if_pos hstart] at hc
    rw [if_pos ⟨hnone, hstart.1, hstart.2, h.safe⟩]
    show s.d.iterators + 1 = _
    omega
  · rw [if_neg hstart] at hc
    rw [if_neg fun hs => hstart ⟨hs.2.1, hs.2.2.1⟩]
    exact hc

/-- The walk has come to an end: everything was returned. -/
theorem iterating_end (h : Iterating t d₀ s) (hended : s.ended = false)
    (hrem : remaining s.d s.iter = []) {iter' : DictIterator} (hsafe : iter'.safe = s.iter.safe)
    (hindex : 0 ≤ iter'.index) (hentry : iter'.entry = none) (hinv : Inv t.addressed (started s.d s.iter))
    (haddrs : (started s.d s.iter).addrs = s.d.addrs) :
    Iterating t d₀ ⟨started s.d s.iter, iter', s.fresh, none, s.returned⟩ := by
  have hend : IterState.ended (⟨started s.d s.iter, iter', s.fresh, none, s.returned⟩ :
      IterState α β) = true := by
    have hi : iter'.index ≠ -1 := by omega
    simp [IterState.ended, hentry, hi]
  have hcome : s.toCome = [] := by
    unfold IterState.toCome
    rw [hended]
    exact hrem
  refine ⟨hinv, ⟨haddrs ▸ h.fresh.nodup, haddrs ▸ h.fresh.below⟩, hsafe.trans h.safe, ?_, ?_,
    h.old, h.once, ?_, ?_, fun k hk => absurd hk (by simp)⟩
  · rw [if_neg (by show ¬ (iter'.index = -1 ∧ _); omega)]
    exact counted_started h (h.walking hended)
  · intro hne
    rw [hend] at hne
    exact absurd hne (by simp)
  · intro a ha
    unfold IterState.toCome at ha
    rw [hend] at ha
    exact absurd ha List.not_mem_nil
  · intro a ha hin
    rcases h.covered a ha (haddrs ▸ hin) with hr | hr
    · exact Or.inl hr
    · rw [hcome] at hr
      exact absurd hr List.not_mem_nil

/-- The walk returns the first of the entries that are left. -/
theorem iterating_return (hl : t.addressed.Lawful) (h : Iterating t d₀ s) (hended : s.ended = false)
    {a : Nat} {rest : List Nat} (hrem : remaining s.d s.iter = a :: rest) {iter' : DictIterator}
    (hsafe : iter'.safe = s.iter.safe) (hindex : 0 ≤ iter'.index) (hentry : iter'.entry = some a)
    (hrest : remaining s.d iter' = rest) (hwalk : Walking s.d iter')
    (hinv : Inv t.addressed (started s.d s.iter))
    (hd : ∃ m, started s.d s.iter = { s.d with iterators := m }) :
    Iterating t d₀ ⟨started s.d s.iter, iter', s.fresh, keyAt (started s.d s.iter) a,
      s.returned ++ [a]⟩ := by
  have hw := h.walking hended
  have hcounted := counted_started h hw
  obtain ⟨m, hm⟩ := hd
  rw [hm] at hcounted hinv ⊢
  have hnotend : IterState.ended (⟨{ s.d with iterators := m }, iter', s.fresh,
      keyAt { s.d with iterators := m } a, s.returned ++ [a]⟩ : IterState α β) = false :=
    ended_of_entry (by
      show iter'.entry ≠ none
      rw [hentry]
      simp)
  have hcome : s.toCome = a :: rest := by
    unfold IterState.toCome
    rw [hended]
    exact hrem
  have hcome' : IterState.toCome (⟨{ s.d with iterators := m }, iter', s.fresh,
      keyAt { s.d with iterators := m } a, s.returned ++ [a]⟩ : IterState α β) = rest := by
    unfold IterState.toCome
    rw [hnotend]
    exact hrest
  have hnd : (a :: rest).Nodup := by
    rw [← hrem]
    exact h.fresh.nodup.sublist (remaining_sublist hw)
  have hain : a ∈ s.d.addrs := (remaining_sublist hw).subset (hrem ▸ List.mem_cons_self)
  have hanew : a ∉ s.returned := h.apart a (hcome ▸ List.mem_cons_self)
  refine ⟨hinv, ⟨h.fresh.nodup, h.fresh.below⟩, hsafe.trans h.safe, ?_, fun _ => ?_, ?_, ?_, ?_, ?_, ?_⟩
  · rw [if_neg (by show ¬ (iter'.index = -1 ∧ _); omega)]
    exact hcounted
  · exact ⟨hwalk.lower, hwalk.first, hwalk.second, hwalk.standing, hwalk.next⟩
  · intro b hb
    rcases hb with hb | hb
    · exact h.old b (Or.inl hb)
    · rcases List.mem_append.mp hb with hb | hb
      · exact h.old b (Or.inr hb)
      · rw [List.mem_singleton.mp hb]
        exact h.fresh.below a hain
  · refine List.nodup_append.mpr ⟨h.once, List.nodup_singleton a, ?_⟩
    intro b hb c hc
    rw [List.mem_singleton.mp hc]
    rintro rfl
    exact hanew hb
  · intro b hb hret
    rw [hcome'] at hb
    rcases List.mem_append.mp hret with hret | hret
    · exact h.apart b (hcome ▸ List.mem_cons_of_mem a hb) hret
    · rw [List.mem_singleton.mp hret] at hb
      exact (List.nodup_cons.mp hnd).1 hb
  · intro b hb hin
    rw [hcome']
    rcases h.covered b hb hin with hr | hr
    · exact Or.inl (List.mem_append_left _ hr)
    · rw [hcome] at hr
      rcases List.mem_cons.mp hr with rfl | hr
      · exact Or.inl (List.mem_append_right _ (List.mem_singleton_self b))
      · exact Or.inr hr
  · intro k hk
    refine ⟨by
      show iter'.entry ≠ none
      rw [hentry]
      simp, fun b hb e he heb => ?_⟩
    obtain ⟨e₀, he₀, heq, rfl⟩ := keyAt_some hk
    refine keyCompare_of_addr hl h.inv he₀ he ?_
    rw [heq, heb]
    rintro rfl
    have hmem := next_mem_remaining hwalk hb
    rw [hrest] at hmem
    exact (List.nodup_cons.mp hnd).1 hmem

/-- **`dictNext`**, in an iteration: it returns an entry of the dict. -/
theorem iterating_next (hl : t.addressed.Lawful) (h : Iterating t d₀ s) (hended : s.ended = false) :
    ∃ s', nextStep s = some s' ∧ Iterating t d₀ s' ∧
      ∀ a ∈ s'.returned, a ∈ s.returned ∨ a ∈ s.d.addrs := by
  have hw := h.walking hended
  obtain ⟨iter', hnext, hsafe, hindex, hentry, hrest⟩ := dictNext_spec h.inv h.fresh.nodup hw
  obtain ⟨m, hm⟩ := started_eq s.d s.iter
  have hinv : Inv t.addressed (started s.d s.iter) := by
    rw [hm]
    exact ⟨h.inv.ht0, h.inv.ht1, h.inv.distinct, h.inv.idle, h.inv.drained, h.inv.behind⟩
  have haddrs : (started s.d s.iter).addrs = s.d.addrs := by
    rw [hm]
    rfl
  cases hrem : remaining s.d s.iter with
  | nil =>
      rw [hrem] at hnext hentry
      refine ⟨⟨started s.d s.iter, iter', s.fresh, none, s.returned⟩, ?_,
        iterating_end h hended hrem hsafe hindex hentry hinv haddrs, fun a ha => Or.inl ha⟩
      rw [nextStep, hnext]
      simp
  | cons a rest =>
      rw [hrem] at hnext hentry
      obtain ⟨hrest, hwalk⟩ := hrest a rest hrem
      refine ⟨⟨started s.d s.iter, iter', s.fresh, keyAt (started s.d s.iter) a,
        s.returned ++ [a]⟩, ?_, iterating_return hl h hended hrem hsafe hindex hentry hrest hwalk hinv
          ⟨m, hm⟩, fun b hb => ?_⟩
      · rw [nextStep, hnext]
        simp
      · rcases List.mem_append.mp hb with hb | hb
        · exact Or.inl hb
        · rw [List.mem_singleton.mp hb]
          exact Or.inr ((remaining_sublist hw).subset (hrem ▸ List.mem_cons_self))

/-- A dict that is walked through has a first table. -/
theorem ht0_ne_of_walking (h : Inv t.addressed d) (hw : Walking d iter) (hindex : 0 ≤ iter.index) :
    d.ht0.size ≠ 0 := by
  cases htable : iter.table with
  | false =>
      have := hw.first htable
      omega
  | true =>
      obtain ⟨hr, -, -⟩ := hw.second htable
      obtain ⟨idx, hidx⟩ := Option.isSome_iff_exists.mp hr
      exact (h.behind idx hidx).2

/-- **A call of the caller**, in an iteration. -/
theorem iterating_op (hl : t.addressed.Lawful) (hh : ∀ key, t.hashFunction key < 2 ^ 32)
    (hi : 0 ≤ d₀.iterators) (h : Iterating t d₀ s) {k : α} (hk : s.current = some k)
    (op : IterOp α β) (halloc : allocated (callerOp t s.d s.fresh k op) = true) :
    Iterating t d₀ { s with d := callerOp t s.d s.fresh k op, fresh := s.fresh + 1 } := by
  obtain ⟨hentry, hcur⟩ := h.current k hk
  have hended := ended_of_entry hentry
  have hw := h.walking hended
  have hindex := hw.standing hentry
  have hcounted : s.d.iterators = d₀.iterators + 1 := by
    have hc := h.counted
    rwa [if_neg (by omega)] at hc
  obtain ⟨dead, ht, hdead⟩ := touched_callerOp hl hh h.inv (ht0_ne_of_walking h.inv hw hindex)
    (by omega) h.fresh k op (allocated.addressable halloc)
  -- the next entry has another key than the one that is taken out
  have hnext : ∀ a, s.iter.next = some a → some a ≠ dead := by
    intro a ha hd
    obtain ⟨e, he, heq, hkey⟩ := hdead a hd.symm
    rw [hcur a ha e he heq] at hkey
    exact absurd hkey (by simp)
  obtain ⟨hw', hleft⟩ := remaining_touched ht h.fresh hw hnext
  have hcome : s.toCome = remaining s.d s.iter := by
    unfold IterState.toCome
    rw [hended]
    rfl
  have hcome' : IterState.toCome { s with d := callerOp t s.d s.fresh k op, fresh := s.fresh + 1 } =
      remaining (callerOp t s.d s.fresh k op) s.iter := by
    unfold IterState.toCome
    rw [show IterState.ended { s with
      d := callerOp t s.d s.fresh k op, fresh := s.fresh + 1 } = false from hended]
    rfl
  refine ⟨ht.inv, ht.fresh h.fresh, h.safe, ?_, fun _ => hw', ?_, h.once, ?_, ?_, ?_⟩
  · rw [if_neg (by show ¬ (s.iter.index = -1 ∧ _); omega)]
    exact ht.iterators.trans hcounted
  · exact fun a ha => Nat.lt_succ_of_lt (h.old a ha)
  · intro a ha hret
    rw [hcome'] at ha
    have hlt := h.old a (Or.inr hret)
    have hmem : a ∈ (remaining s.d s.iter).filter (fun a => decide (some a ≠ dead)) := by
      rw [← hleft]
      exact List.mem_filter.mpr ⟨ha, by simpa using hlt⟩
    exact h.apart a (hcome ▸ List.mem_of_mem_filter hmem) hret
  · intro a ha hin
    have hlt := h.old a (Or.inl ha)
    obtain ⟨e, he, heq⟩ := mem_addrs.mp hin
    obtain ⟨hne, e₀, he₀, hkey⟩ := ht.key_mem he (heq ▸ hlt)
    have hold : a ∈ s.d.addrs := mem_addrs.mpr ⟨e₀, he₀, by rw [DictEntry.addr, hkey]; exact heq⟩
    rcases h.covered a ha hold with hr | hr
    · exact Or.inl hr
    · refine Or.inr ?_
      rw [hcome] at hr
      rw [hcome']
      have hmem : a ∈ (remaining (callerOp t s.d s.fresh k op) s.iter).filter
          (fun a => decide (a < s.fresh)) := by
        rw [hleft]
        exact List.mem_filter.mpr ⟨hr, by simpa [heq] using hne⟩
      exact List.mem_of_mem_filter hmem
  · intro k' hk'
    obtain rfl : k = k' := Option.some.inj (hk.symm.trans hk')
    refine ⟨hentry, fun a ha e he heq => ?_⟩
    have hlt : a < s.fresh := h.fresh.below a ((remaining_sublist hw).subset (next_mem_remaining hw ha))
    obtain ⟨-, e₀, he₀, hkey⟩ := ht.key_mem he (heq ▸ hlt)
    rw [← hkey]
    exact hcur a ha e₀ he₀ (by rw [DictEntry.addr, hkey]; exact heq)

theorem iterating_step (hl : t.addressed.Lawful) (hh : ∀ key, t.hashFunction key < 2 ^ 32)
    (hi : 0 ≤ d₀.iterators) (h : Iterating t d₀ s) {op : IterOp α β} (hs : iterStep t s op = some s') :
    Iterating t d₀ s' := by
  have hcaller : (s.current.bind fun k =>
      if allocated (callerOp t s.d s.fresh k op) then
        some { s with d := callerOp t s.d s.fresh k op, fresh := s.fresh + 1 } else none) = some s' →
      Iterating t d₀ s' := by
    intro hs
    obtain ⟨k, hk, hs⟩ := Option.bind_eq_some_iff.mp hs
    split at hs
    · rename_i halloc
      obtain rfl := Option.some.inj hs
      exact iterating_op hl hh hi h hk op halloc
    · exact absurd hs (by simp)
  cases op with
  | next =>
      have hs : (if s.ended then none else nextStep s) = some s' := hs
      cases hended : s.ended with
      | true =>
          rw [hended] at hs
          exact absurd hs (by simp)
      | false =>
          rw [hended] at hs
          obtain ⟨s₁, hs₁, hit, -⟩ := iterating_next hl h hended
          obtain rfl : s₁ = s' := Option.some.inj (hs₁.symm.trans hs)
          exact hit
  | _ => exact hcaller hs

theorem iterating_run (hl : t.addressed.Lawful) (hh : ∀ key, t.hashFunction key < 2 ^ 32)
    (hi : 0 ≤ d₀.iterators) {ops : List (IterOp α β)} :
    ∀ {s s' : IterState α β}, Iterating t d₀ s → iterRun t s ops = some s' → Iterating t d₀ s' := by
  induction ops with
  | nil =>
      intro s s' h hrun
      cases hrun
      exact h
  | cons op ops ih =>
      intro s s' h hrun
      obtain ⟨s₁, hs₁, hrun⟩ := Option.bind_eq_some_iff.mp hrun
      exact ih (iterating_step hl hh hi h hs₁) hrun

theorem DictType.Lawful.addressed {t : DictType α} (hl : t.Lawful) : t.addressed.Lawful where
  refl k := hl.refl k.1
  symm h := hl.symm h
  trans h₁ h₂ := hl.trans h₁ h₂
  hash h := hl.hash h

/-- Numbers as keys, hashed to an `unsigned int`. -/
def uintType : DictType Nat := ⟨fun n => n % 2 ^ 32, fun a b => decide (a = b)⟩

theorem uintType_lawful : uintType.Lawful where
  refl := fun a => by simp [uintType]
  symm := fun h => by simp only [uintType, decide_eq_true_eq] at h ⊢; exact h.symm
  trans := fun h₁ h₂ => by simp only [uintType, decide_eq_true_eq] at h₁ h₂ ⊢; exact h₁.trans h₂
  hash := fun h => by
    simp only [uintType, decide_eq_true_eq] at h
    rw [h]

/-- A dict that is being rehashed: the fifth entry made it grow. -/
def growingDict : Dict (Nat × Nat) Nat :=
  (dictRun uintType.addressed dictCreate [.add true (1, 0) 10 0, .add true (5, 1) 50 0,
    .add true (9, 2) 90 0, .add true (2, 3) 20 0, .add true (13, 4) 130 0]).1

/-- The caller deletes what it gets, and adds, replaces and looks up other keys. -/
def callerOps : List (IterOp Nat Nat) :=
  [.next, .delete, .add true 17 170 0, .next, .replace true 2 21 0, .next, .delete, .find 1,
    .addRaw true 33 0, .next, .replaceRaw true 3 0, .delete, .next, .next, .next, .next, .next]

end RedisCore
