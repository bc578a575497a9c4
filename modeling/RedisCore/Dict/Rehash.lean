/-
# `RedisCore.Dict.Rehash` — rehashing and expanding keep the entries

Moving buckets and opening a second table change where the entries are and nothing
else.  `Same` says so: the dict is well formed again, and its entries are the old
ones up to order.
-/
import RedisCore.Dict.Inv
import Mathlib.Tactic.SplitIfs

namespace RedisCore

variable {α β : Type} {t : DictType α}

/-- Both tables stay below the sizes whose indices an `int` holds. -/
def Small (d : Dict α β) : Prop := d.ht0.size < 2 ^ 31 ∧ d.ht1.size < 2 ^ 31

/-- Both tables stay below the size that `_dictNextPower` answers when it gives up. -/
def Addressable (d : Dict α β) : Prop := d.ht0.size < 2 ^ 63 - 1 ∧ d.ht1.size < 2 ^ 63 - 1

theorem Small.addressable {d : Dict α β} (h : Small d) : Addressable d :=
  ⟨Nat.lt_trans h.1 (by decide), Nat.lt_trans h.2 (by decide)⟩

/-- `d'` is well formed and holds the entries of `d`. -/
structure Same (t : DictType α) (d d' : Dict α β) : Prop where
  inv : Inv t d'
  perm : d'.entries.Perm d.entries
  iters : d'.iterators = d.iterators

theorem Same.refl {d : Dict α β} (h : Inv t d) : Same t d d := ⟨h, List.Perm.refl _, rfl⟩

theorem Same.trans {a b c : Dict α β} (h₁ : Same t a b) (h₂ : Same t b c) : Same t a c :=
  ⟨h₂.inv, h₂.perm.trans h₁.perm, h₂.iters.trans h₁.iters⟩

/-- The keys of the entries are pairwise different, in any order of the entries. -/
theorem distinct_perm (hl : t.Lawful) {E E' : List (DictEntry α β)} (h : E.Perm E')
    (hd : E.Pairwise (fun a b => t.keyCompare a.key b.key = false)) :
    E'.Pairwise (fun a b => t.keyCompare a.key b.key = false) := by
  refine (h.pairwise_iff ?_).mp hd
  intro a b hab
  by_contra hba
  rw [hl.symm (Bool.not_eq_false _ |>.mp hba)] at hab
  exact absurd hab (by simp)

/-- Two entries of a dict with one key are the same. -/
theorem eq_of_distinct (hl : t.Lawful) {E : List (DictEntry α β)}
    (hd : E.Pairwise (fun a b => t.keyCompare a.key b.key = false)) {e e' : DictEntry α β}
    (he : e ∈ E) (he' : e' ∈ E) (h : t.keyCompare e.key e'.key = true) : e = e' := by
  have hsymm : Std.Symm (fun a b : DictEntry α β => t.keyCompare a.key b.key = false) := by
    constructor
    intro a b hab
    by_contra hba
    rw [hl.symm (Bool.not_eq_false _ |>.mp hba)] at hab
    exact absurd hab (by simp)
  by_contra hne
  exact absurd (h.symm.trans (hd.forall he he' hne)) (by simp)

theorem inv_dictCreate : Inv t (dictCreate : Dict α β) where
  ht0 := htInv_reset
  ht1 := htInv_reset
  distinct := List.Pairwise.nil
  idle := ⟨fun _ => rfl, fun _ => rfl⟩
  drained := fun idx h => by simp [dictCreate] at h
  behind := fun idx h => by simp [dictCreate] at h

/-! ## The second table is empty unless a rehash runs -/

theorem Inv.ht1_entries_nil {d : Dict α β} (h : Inv t d) (hr : d.rehashidx = none) :
    d.ht1.entries = [] := by
  have := h.ht1.entries_nil (h.idle.mp hr)
  simp [Dictht.entries, this]

theorem Inv.ht1_size_ne {d : Dict α β} (h : Inv t d) {idx : Nat} (hr : d.rehashidx = some idx) :
    d.ht1.size ≠ 0 := by
  intro h0
  rw [h.idle.mpr h0] at hr
  exact absurd hr (by simp)

theorem dictSize_eq {d : Dict α β} (h : Inv t d) : dictSize d = d.entries.length := by
  rw [dictSize, h.ht0.used, h.ht1.used, Dict.entries, List.length_append]

/-! ## Table sizes under rehashing -/

/-- How the table sizes can change in a rehash: not at all, or the second table
takes the place of the first. -/
def Settled (d d' : Dict α β) : Prop :=
  (d'.ht0.size = d.ht0.size ∧ d'.ht1.size = d.ht1.size ∧ d'.rehashidx.isSome = d.rehashidx.isSome) ∨
  (d.rehashidx.isSome ∧ d'.ht0.size = d.ht1.size ∧ d'.ht1.size = 0 ∧ d'.rehashidx = none)

theorem pushAll_size (c : List (DictEntry α β)) :
    ∀ ht : Dictht α β, (c.foldl (pushRehashed t) ht).size = ht.size := by
  induction c with
  | nil => intro ht; rfl
  | cons e c ih => intro ht; exact ih (pushRehashed t ht e)

theorem rehashFinish_settled {d : Dict α β} {idx : Nat} (hr : d.rehashidx = some idx) :
    Settled d (rehashFinish d).1 := by
  by_cases hu : d.ht0.used = 0
  · simp only [rehashFinish, hu, if_true]
    exact Or.inr ⟨by simp [hr], rfl, rfl, rfl⟩
  · simp only [rehashFinish, hu, if_false]
    exact Or.inl ⟨rfl, rfl, rfl⟩

theorem rehashLoop_settled : ∀ (fuel : Nat) {d : Dict α β} (idx : Nat) (n visits : Int) {i : Nat},
    d.rehashidx = some i → Settled d (rehashLoop t fuel d idx n visits).1 := by
  intro fuel
  induction fuel with
  | zero => intro d idx n visits i hr; exact rehashFinish_settled hr
  | succ fuel ih =>
      intro d idx n visits i hr
      by_cases hc : n ≠ 0 ∧ d.ht0.used ≠ 0
      · simp only [rehashLoop, hc, ne_eq, not_false_eq_true, and_self, if_true]
        cases skipEmpty (d.ht0.table.drop idx) idx visits with
        | inl idx' => exact Or.inl ⟨rfl, rfl, by simp [hr]⟩
        | inr p =>
            have hs1 : (moveBucket t d p.1).ht1.size = d.ht1.size := pushAll_size _ _
            rcases ih (d := moveBucket t d p.1) (p.1 + 1) (n - 1) p.2 rfl with
              ⟨ha, hb, hc'⟩ | ⟨_, ha, hb, hc'⟩
            · exact Or.inl ⟨ha, hb.trans hs1, hc'.trans (by rw [hr]; rfl)⟩
            · exact Or.inr ⟨by simp [hr], ha.trans hs1, hb, hc'⟩
      · simp only [rehashLoop, hc, if_false]
        exact rehashFinish_settled hr

theorem dictRehash_settled (d : Dict α β) (n : Int) : Settled d (dictRehash t d n).1 := by
  cases hr : d.rehashidx with
  | none => simp only [dictRehash, hr]; exact Or.inl ⟨rfl, rfl, rfl⟩
  | some idx => simp only [dictRehash, hr]; exact rehashLoop_settled _ idx n (n * 10) hr

theorem rehashStepIfNeeded_settled (d : Dict α β) : Settled d (rehashStepIfNeeded t d) := by
  unfold rehashStepIfNeeded dictRehashStep
  split
  · split
    · exact dictRehash_settled d 1
    · exact Or.inl ⟨rfl, rfl, rfl⟩
  · exact Or.inl ⟨rfl, rfl, rfl⟩

/-! ## Rehashing -/

/-- The inner loop only steps over empty buckets, and stops at a non-empty one or
when the visits are used up. -/
theorem skipEmpty_spec : ∀ (l : List (List (DictEntry α β))) (idx : Nat) (visits : Int),
    match skipEmpty l idx visits with
    | .inl idx' => idx ≤ idx' ∧ idx' ≤ idx + l.length ∧
        ∀ j, idx ≤ j → j < idx' → l.getD (j - idx) [] = []
    | .inr (idx', _) => idx ≤ idx' ∧ idx' < idx + l.length ∧
        (∀ j, idx ≤ j → j < idx' → l.getD (j - idx) [] = []) ∧ l.getD (idx' - idx) [] ≠ [] := by
  intro l
  induction l with
  | nil => intro idx visits; simp only [skipEmpty]; exact ⟨Nat.le_refl _, by simp, by omega⟩
  | cons c l ih =>
      intro idx visits
      cases c with
      | cons e c =>
          simp only [skipEmpty]
          exact ⟨Nat.le_refl _, by simp, by omega, by simp⟩
      | nil =>
          have hshift : ∀ j, idx + 1 ≤ j →
              (([] : List (DictEntry α β)) :: l).getD (j - idx) [] = l.getD (j - (idx + 1)) [] := by
            intro j hj
            rw [show j - idx = (j - (idx + 1)) + 1 by omega, List.getD_cons_succ]
          have hhead : ∀ j, idx ≤ j → ¬ idx + 1 ≤ j →
              (([] : List (DictEntry α β)) :: l).getD (j - idx) [] = [] := by
            intro j h1 h2
            rw [show j - idx = 0 by omega, List.getD_cons_zero]
          by_cases hv : visits - 1 = 0
          · simp only [skipEmpty, hv, if_true]
            exact ⟨by omega, by simp, fun j h1 h2 => hhead j h1 (by omega)⟩
          · have := ih (idx + 1) (visits - 1)
            simp only [skipEmpty, hv, if_false]
            cases hs : skipEmpty l (idx + 1) (visits - 1) with
            | inl idx' =>
                rw [hs] at this
                obtain ⟨h1, h2, h3⟩ := this
                refine ⟨by omega, by simp only [List.length_cons]; omega, fun j h4 h5 => ?_⟩
                by_cases hj : idx + 1 ≤ j
                · rw [hshift j hj]; exact h3 j hj h5
                · exact hhead j h4 hj
            | inr p =>
                rw [hs] at this
                obtain ⟨h1, h2, h3, h4⟩ := this
                refine ⟨by omega, by simp only [List.length_cons]; omega, fun j h5 h6 => ?_, ?_⟩
                · by_cases hj : idx + 1 ≤ j
                  · rw [hshift j hj]; exact h3 j hj h6
                  · exact hhead j h5 hj
                · rw [hshift _ h1]; exact h4

theorem getD_drop_chain (ht : Dictht α β) {idx j : Nat} (h : idx ≤ j) :
    (ht.table.drop idx).getD (j - idx) [] = ht.chain j := by
  rw [Dictht.chain, List.getD_eq_getElem?_getD, List.getElem?_drop,
    List.getD_eq_getElem?_getD, Nat.add_sub_cancel' h]

/-- Moving one bucket keeps the entries. -/
theorem moveBucket_spec (hl : t.Lawful) {d : Dict α β} (h : Inv t d) {idx idx' : Nat}
    (hr : d.rehashidx = some idx) (hlt : idx' < d.ht0.size)
    (hempty : ∀ j < idx', d.ht0.chain j = []) :
    Same t d (moveBucket t d idx') := by
  have hlt' : idx' < d.ht0.table.length := h.ht0.length ▸ hlt
  obtain ⟨rest, hold, hnew⟩ := Dictht.exists_rest hlt'
  obtain ⟨h1, hp1⟩ := h.ht1.pushAll (h.ht1_size_ne hr) (c := d.ht0.chain idx')
  have hs1 : (moveBucket t d idx').ht1.size = d.ht1.size := pushAll_size _ _
  have hperm : (moveBucket t d idx').entries.Perm d.entries := by
    have ha : (moveBucket t d idx').entries.Perm
        (([] ++ rest) ++ (d.ht0.chain idx' ++ d.ht1.entries)) :=
      List.Perm.append (hnew []) hp1
    have hb : d.entries.Perm ((d.ht0.chain idx' ++ rest) ++ d.ht1.entries) :=
      List.Perm.append_right _ hold
    refine ha.trans (List.Perm.trans ?_ hb.symm)
    rw [List.nil_append, List.append_assoc]
    exact List.perm_append_comm_assoc _ _ _
  refine ⟨⟨?_, h1, distinct_perm hl hperm.symm h.distinct, ?_, ?_, ?_⟩, hperm, rfl⟩
  · apply h.ht0.setChain hlt
    · simp
    · have hlen : (d.ht0.chain idx').length ≤ d.ht0.used := by
        rw [h.ht0.used, hold.length_eq, List.length_append]
        omega
      simp only [List.length_nil]
      omega
  · show some (idx' + 1) = none ↔ _
    simp only [reduceCtorEq, false_iff]
    exact fun h0 => h.ht1_size_ne hr (hs1 ▸ h0)
  · intro k hk j hj
    cases hk
    show (d.ht0.setChain idx' []).chain j = []
    rw [Dictht.chain_setChain hlt']
    by_cases hij : idx' = j
    · rw [if_pos hij]
    · rw [if_neg hij]; exact hempty j (by omega)
  · intro k hk
    cases hk
    exact ⟨hlt, (h.behind idx hr).2⟩

theorem rehashFinish_spec {d : Dict α β} (h : Inv t d) : Same t d (rehashFinish d).1 := by
  by_cases hu : d.ht0.used = 0
  · have hnil : d.ht0.entries = [] := List.eq_nil_of_length_eq_zero (h.ht0.used ▸ hu)
    have he : d.entries = d.ht1.entries := by rw [Dict.entries, hnil, List.nil_append]
    simp only [rehashFinish, hu, if_true]
    refine ⟨⟨h.ht1, htInv_reset, ?_, ?_, ?_, ?_⟩, ?_, rfl⟩
    · have := h.distinct
      rw [he] at this
      simpa [Dict.entries, dictReset, Dictht.entries] using this
    · exact ⟨fun _ => rfl, fun _ => rfl⟩
    · intro k hk; exact absurd hk (by simp)
    · intro k hk; exact absurd hk (by simp)
    · rw [he]; simp [Dict.entries, dictReset, Dictht.entries]
  · simp only [rehashFinish, hu, if_false]
    exact Same.refl h

theorem rehashLoop_spec (hl : t.Lawful) : ∀ (fuel : Nat) {d : Dict α β} (idx : Nat) (n visits : Int),
    Inv t d → d.rehashidx = some idx → Same t d (rehashLoop t fuel d idx n visits).1 := by
  intro fuel
  induction fuel with
  | zero => intro d idx n visits h _; exact rehashFinish_spec h
  | succ fuel ih =>
      intro d idx n visits h hr
      by_cases hc : n ≠ 0 ∧ d.ht0.used ≠ 0
      · have hspec := skipEmpty_spec (d.ht0.table.drop idx) idx visits
        have hlen : idx + (d.ht0.table.drop idx).length = d.ht0.size := by
          rw [List.length_drop, h.ht0.length]
          have := (h.behind idx hr).1
          omega
        simp only [rehashLoop, hc, ne_eq, not_false_eq_true, and_self, if_true]
        cases hs : skipEmpty (d.ht0.table.drop idx) idx visits with
        | inl idx' =>
            rw [hs] at hspec
            obtain ⟨h1, h2, h3⟩ := hspec
            have hle : idx' ≤ d.ht0.size := by omega
            refine ⟨⟨h.ht0, h.ht1, h.distinct, ?_, ?_, ?_⟩, List.Perm.refl _, rfl⟩
            · show some idx' = none ↔ _
              simp only [reduceCtorEq, false_iff]
              exact h.ht1_size_ne hr
            · intro k hk j hj
              cases hk
              by_cases hji : j < idx
              · exact h.drained idx hr j hji
              · have := h3 j (by omega) hj
                rwa [getD_drop_chain _ (by omega)] at this
            · intro k hk
              cases hk
              exact ⟨hle, (h.behind idx hr).2⟩
        | inr p =>
            rw [hs] at hspec
            obtain ⟨h1, h2, h3, _⟩ := hspec
            have hempty : ∀ j < p.1, d.ht0.chain j = [] := by
              intro j hj
              by_cases hji : j < idx
              · exact h.drained idx hr j hji
              · have := h3 j (by omega) hj
                rwa [getD_drop_chain _ (by omega)] at this
            have hsame : Same t d (moveBucket t d p.1) := moveBucket_spec hl h hr (by omega) hempty
            exact hsame.trans (ih (p.1 + 1) (n - 1) p.2 hsame.inv rfl)
      · simp only [rehashLoop, hc, if_false]
        exact rehashFinish_spec h

theorem dictRehash_spec (hl : t.Lawful) {d : Dict α β} (h : Inv t d) (n : Int) :
    Same t d (dictRehash t d n).1 := by
  cases hr : d.rehashidx with
  | none => simp only [dictRehash, hr]; exact Same.refl h
  | some idx => simp only [dictRehash, hr]; exact rehashLoop_spec hl _ idx n (n * 10) h hr

theorem rehashStepIfNeeded_spec (hl : t.Lawful) {d : Dict α β} (h : Inv t d) :
    Same t d (rehashStepIfNeeded t d) := by
  unfold rehashStepIfNeeded dictRehashStep
  split
  · split
    · exact dictRehash_spec hl h 1
    · exact Same.refl h
  · exact Same.refl h

/-- A rehash step never leaves the dict without a first table. -/
theorem Settled.ht0_ne {d d' : Dict α β} (h : Inv t d) (hs : Settled d d')
    (hne : d.ht0.size ≠ 0) : d'.ht0.size ≠ 0 := by
  rcases hs with ⟨h0, _, _⟩ | ⟨hr, h0, _, _⟩
  · rwa [h0]
  · obtain ⟨idx, hidx⟩ := Option.isSome_iff_exists.mp hr
    rw [h0]
    exact h.ht1_size_ne hidx

theorem Settled.small {d d' : Dict α β} (hs : Settled d d') (h : Small d) : Small d' := by
  rcases hs with ⟨h0, h1, _⟩ | ⟨_, h0, h1, _⟩
  · exact ⟨h0 ▸ h.1, h1 ▸ h.2⟩
  · exact ⟨h0 ▸ h.2, by rw [h1]; decide⟩

/-! ## Expanding -/

theorem dictIsRehashing_eq_false {d : Dict α β} :
    dictIsRehashing d = false ↔ d.rehashidx = none := by
  simp [dictIsRehashing]

/-- A successful expansion opens an empty table of the requested size: the first
one of a new dict, the second one otherwise. -/
theorem dictExpand_cases {d d' : Dict α β} {size : Nat} (he : dictExpand d size = some d') :
    d.rehashidx = none ∧ dictNextPower size ≠ d.ht0.size ∧
    ∃ n : Dictht α β, n = ⟨List.replicate (dictNextPower size) [], dictNextPower size,
        dictNextPower size - 1, 0⟩ ∧
      ((d.ht0.table = [] ∧ d' = { d with ht0 := n }) ∨
       (d.ht0.table ≠ [] ∧ d' = { d with ht1 := n, rehashidx := some 0 })) := by
  simp only [dictExpand] at he
  split_ifs at he with h1 h2 h3
  · simp only [Bool.or_eq_true, decide_eq_true_eq, not_or, Bool.not_eq_true] at h1
    exact ⟨dictIsRehashing_eq_false.mp h1.1, h2, _, rfl,
      Or.inl ⟨List.isEmpty_iff.mp h3, (Option.some.inj he).symm⟩⟩
  · simp only [Bool.or_eq_true, decide_eq_true_eq, not_or, Bool.not_eq_true] at h1
    exact ⟨dictIsRehashing_eq_false.mp h1.1, h2, _, rfl,
      Or.inr ⟨fun hn => h3 (List.isEmpty_iff.mpr hn), (Option.some.inj he).symm⟩⟩

theorem dictExpand_spec {d d' : Dict α β} (h : Inv t d) {size : Nat}
    (he : dictExpand d size = some d') (hsmall : Addressable d') :
    Same t d d' ∧ d'.ht0.size ≠ 0 := by
  obtain ⟨hr, _, n, hn, ⟨hnil, hd⟩ | ⟨hnil, hd⟩⟩ := dictExpand_cases he
  · -- the first table
    have hpow : dictNextPower size < 2 ^ 63 - 1 := by
      have := hsmall.1
      rwa [hd, hn] at this
    obtain ⟨k, hk, hp, _⟩ := dictNextPower_spec (dictNextPower_of_lt hpow)
    have hent : d.ht0.entries = [] := by simp [Dictht.entries, hnil]
    have hperm : d'.entries.Perm d.entries := by
      rw [hd, Dict.entries, Dict.entries, hent, hn, entries_fresh]
    have hne : d'.ht0.size ≠ 0 := by
      rw [hd, hn, hp]
      exact Nat.ne_of_gt (Nat.two_pow_pos k)
    refine ⟨⟨⟨?_, ?_, ?_, ?_, ?_, ?_⟩, hperm, by rw [hd]⟩, hne⟩
    · rw [hd, hn, hp]; exact htInv_fresh k
    · rw [hd]; exact h.ht1
    · have := h.distinct
      rw [Dict.entries, hent, List.nil_append] at this
      rw [hd, Dict.entries, hn, entries_fresh, List.nil_append]
      exact this
    · rw [hd]; exact h.idle
    · intro idx hidx; rw [hd, hr] at hidx; exact absurd hidx (by simp)
    · intro idx hidx; rw [hd, hr] at hidx; exact absurd hidx (by simp)
  · -- the second table
    have hpow : dictNextPower size < 2 ^ 63 - 1 := by
      have := hsmall.2
      rwa [hd, hn] at this
    obtain ⟨k, hk, hp, _⟩ := dictNextPower_spec (dictNextPower_of_lt hpow)
    have hne : d.ht0.size ≠ 0 := fun h0 => hnil (h.ht0.entries_nil h0)
    have hent : d'.entries = d.entries := by
      rw [hd, Dict.entries, Dict.entries, hn, entries_fresh, h.ht1_entries_nil hr]
    refine ⟨⟨⟨?_, ?_, ?_, ?_, ?_, ?_⟩, by rw [hent], by rw [hd]⟩, by rw [hd]; exact hne⟩
    · rw [hd]; exact h.ht0
    · rw [hd, hn, hp]; exact htInv_fresh k
    · rw [hent]; exact h.distinct
    · rw [hd, hn, hp]
      show some 0 = none ↔ 2 ^ k = 0
      simp
    · intro idx hidx j hj
      rw [hd] at hidx
      cases hidx
      exact absurd hj (Nat.not_lt_zero j)
    · intro idx hidx
      rw [hd] at hidx ⊢
      cases hidx
      exact ⟨Nat.zero_le _, hne⟩

theorem two_pow_ne_long_max (k : Nat) : 2 ^ k ≠ 2 ^ 63 - 1 := by
  intro h
  rcases Nat.eq_zero_or_pos k with rfl | hk
  · exact absurd h (by decide)
  · obtain ⟨j, rfl⟩ : ∃ j, k = j + 1 := ⟨k - 1, by omega⟩
    rw [Nat.pow_succ] at h
    omega

/-- The automatic expansion never fails. -/
theorem dictExpandIfNeeded_isSome (canResize : Bool) {d : Dict α β} (h : Inv t d) :
    ∃ d', dictExpandIfNeeded canResize d = some d' := by
  unfold dictExpandIfNeeded
  split_ifs with h1 h2 h3
  · exact ⟨d, rfl⟩
  · have hnil := h.ht0.entries_nil h2
    have hu : d.ht0.used = 0 := by rw [h.ht0.used, Dictht.entries, hnil]; rfl
    have hp : dictNextPower DICT_HT_INITIAL_SIZE = 4 := by decide
    simp [dictExpand, h1, hu, h2, hp, hnil]
  · have hsize : 0 < d.ht0.size := Nat.pos_of_ne_zero h2
    have hne : dictNextPower (d.ht0.used * 2) ≠ d.ht0.size := by
      by_cases hbig : d.ht0.used * 2 < 2 ^ 63 - 1
      · obtain ⟨k, _, hp, hle⟩ := dictNextPower_spec hbig
        rw [hp]
        omega
      · have hmax : CInt.LONG_MAX.toNat = 2 ^ 63 - 1 := rfl
        obtain h0 | ⟨k, hk⟩ := h.ht0.pow
        · exact absurd h0 h2
        · rw [dictNextPower, if_pos (by omega), hmax, hk]
          exact (two_pow_ne_long_max k).symm
    have hle : ¬ d.ht0.used > d.ht0.used * 2 := by omega
    have hnil : d.ht0.table ≠ [] := fun hn => by
      have := h.ht0.length
      rw [hn] at this
      exact h2 this.symm
    have hnil' : d.ht0.table.isEmpty = false := by simpa using hnil
    exact ⟨_, by simp [dictExpand, h1, hle, hne, hnil']; rfl⟩
  · exact ⟨d, rfl⟩

/-- After the automatic expansion there is a first table, with the old entries. -/
theorem dictExpandIfNeeded_spec (canResize : Bool) {d d' : Dict α β} (h : Inv t d)
    (he : dictExpandIfNeeded canResize d = some d') (hsmall : Addressable d') :
    Same t d d' ∧ d'.ht0.size ≠ 0 := by
  unfold dictExpandIfNeeded at he
  split_ifs at he with h1 h2 h3
  · cases he
    obtain ⟨idx, hidx⟩ := Option.isSome_iff_exists.mp h1
    exact ⟨Same.refl h, (h.behind idx hidx).2⟩
  · exact dictExpand_spec h he hsmall
  · exact dictExpand_spec h he hsmall
  · cases he
    exact ⟨Same.refl h, h2⟩

/-- The first table only changes size when there was none. -/
theorem dictExpandIfNeeded_ht0 (canResize : Bool) {d d' : Dict α β} (h : Inv t d)
    (he : dictExpandIfNeeded canResize d = some d') :
    d'.ht0.size = d.ht0.size ∨ (d'.rehashidx = none ∧ d'.ht1.size = 0) := by
  have hexp : ∀ size, dictExpand d size = some d' →
      d'.ht0.size = d.ht0.size ∨ (d'.rehashidx = none ∧ d'.ht1.size = 0) := by
    intro size hs
    obtain ⟨hr, _, n, _, ⟨_, hd⟩ | ⟨_, hd⟩⟩ := dictExpand_cases hs
    · exact Or.inr ⟨by rw [hd]; exact hr, by rw [hd]; exact h.idle.mp hr⟩
    · exact Or.inl (by rw [hd])
  unfold dictExpandIfNeeded at he
  split_ifs at he with h1 h2 h3
  · cases he; exact Or.inl rfl
  · exact hexp _ he
  · exact hexp _ he
  · cases he; exact Or.inl rfl

end RedisCore
