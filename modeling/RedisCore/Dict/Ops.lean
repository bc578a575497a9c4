/-
# `RedisCore.Dict.Ops` — what each operation does to the entries

One statement per function of dict.c, in terms of the list of all entries up to
order: adding puts one entry in front, deleting takes one away, setting a value
changes one entry.  Each operation also restores `Inv`.  No proof outside this file
unfolds an operation.
-/
import RedisCore.Dict.Rehash

namespace RedisCore

variable {α β : Type} {t : DictType α}

/-! ## Finding an entry -/

theorem chainFind_none {key : α} {c : List (DictEntry α β)} (h : chainFind t key c = none) :
    ∀ e ∈ c, t.keyCompare key e.key = false := by
  simpa [chainFind] using h

theorem chainFind_some {key : α} {chain : List (DictEntry α β)} {p : Nat}
    (h : chainFind t key chain = some p) :
    ∃ e, chain[p]? = some e ∧ t.keyCompare key e.key = true := by
  obtain ⟨hp, hk, _⟩ := List.findIdx?_eq_some_iff_getElem.mp h
  exact ⟨chain[p], List.getElem?_eq_getElem hp, hk⟩

/-- The search the lookup, the deletion and the insertion share: the chain of the
first table, then, during a rehash, the chain of the second. -/
def locate (t : DictType α) (d : Dict α β) (key : α) : Option Ref :=
  match chainFind t key (d.ht0.chain (d.ht0.index t key)) with
  | some p => some ⟨false, d.ht0.index t key, p⟩
  | none =>
      if dictIsRehashing d then
        (chainFind t key (d.ht1.chain (d.ht1.index t key))).map
          (fun p => ⟨true, d.ht1.index t key, p⟩)
      else none

theorem locate_none (hl : t.Lawful) {d : Dict α β} (h : Inv t d) {key : α}
    (hn : locate t d key = none) : ∀ e ∈ d.entries, t.keyCompare key e.key = false := by
  unfold locate at hn
  cases h0 : chainFind t key (d.ht0.chain (d.ht0.index t key)) with
  | some p => rw [h0] at hn; exact absurd hn (by simp)
  | none =>
      rw [h0] at hn
      -- an equal key would be filed in the chain that was searched
      have hmiss : ∀ ht : Dictht α β, HtInv t ht →
          chainFind t key (ht.chain (ht.index t key)) = none →
          ∀ e ∈ ht.entries, t.keyCompare key e.key = false := by
        intro ht hht hc e he
        by_contra hne
        have heq := Bool.not_eq_false _ |>.mp hne
        have hmem := hht.mem_chain he
        rw [← ht.index_congr hl heq] at hmem
        exact hne (chainFind_none hc e hmem)
      intro e he
      rcases List.mem_append.mp he with he | he
      · exact hmiss d.ht0 h.ht0 h0 e he
      · cases hr : d.rehashidx with
        | none => rw [h.ht1_entries_nil hr] at he; exact absurd he List.not_mem_nil
        | some idx =>
            simp only [dictIsRehashing, hr, Option.isSome_some, if_true, Option.map_eq_none_iff] at hn
            exact hmiss d.ht1 h.ht1 hn e he

theorem locate_some {d : Dict α β} {key : α} {r : Ref} (hs : locate t d key = some r) :
    ∃ e, entryAt d r = some e ∧ t.keyCompare key e.key = true := by
  unfold locate at hs
  cases h0 : chainFind t key (d.ht0.chain (d.ht0.index t key)) with
  | some p =>
      rw [h0] at hs
      cases hs
      exact chainFind_some h0
  | none =>
      rw [h0] at hs
      simp only at hs
      split_ifs at hs
      obtain ⟨p, hp, rfl⟩ := Option.map_eq_some_iff.mp hs
      exact chainFind_some hp

theorem mem_entries_of_entryAt {d : Dict α β} {r : Ref} {e : DictEntry α β}
    (he : entryAt d r = some e) : e ∈ d.entries := by
  have hmem := List.mem_of_getElem? he
  rw [Dict.entries, List.mem_append]
  cases hs : r.second with
  | false =>
      rw [hs] at hmem
      exact Or.inl (Dictht.mem_entries.mpr ⟨_, hmem⟩)
  | true =>
      rw [hs] at hmem
      exact Or.inr (Dictht.mem_entries.mpr ⟨_, hmem⟩)

/-! ## Changing and unlinking one entry -/

section OneTable

variable {ht : Dictht α β} {i p : Nat} {e : DictEntry α β}

theorem lt_of_getElem?_chain (he : (ht.chain i)[p]? = some e) : i < ht.table.length := by
  by_contra hi
  rw [Dictht.chain_of_ge (Nat.le_of_not_lt hi)] at he
  exact absurd he (by simp)

/-- An entry of a table can be dropped, or given another value, and nothing else
changes. -/
theorem HtInv.unlink_setVal (h : HtInv t ht) (he : (ht.chain i)[p]? = some e) :
    ∃ rest, ht.entries.Perm (e :: rest) ∧
      (HtInv t (ht.unlink i p) ∧ (ht.unlink i p).entries.Perm rest) ∧
      ∀ v, HtInv t (ht.setValAt i p v) ∧
        (ht.setValAt i p v).entries.Perm ({ e with val := v } :: rest) := by
  have hi := lt_of_getElem?_chain he
  have hi' : i < ht.size := h.length ▸ hi
  obtain ⟨hp, hget⟩ := List.getElem?_eq_some_iff.mp he
  obtain ⟨rest, hold, hnew⟩ := Dictht.exists_rest hi
  have hmem : e ∈ ht.chain i := hget ▸ List.getElem_mem hp
  have hsplit : (ht.chain i).Perm (e :: (ht.chain i).eraseIdx p) := by
    have := List.getElem_cons_eraseIdx_perm hp
    rw [hget] at this
    exact this.symm
  refine ⟨(ht.chain i).eraseIdx p ++ rest, ?_, ⟨?_, hnew _⟩, fun v => ⟨?_, ?_⟩⟩
  · exact hold.trans (hsplit.append_right rest)
  · apply h.setChain hi'
    · intro x hx; exact h.bucket i x (List.mem_of_mem_eraseIdx hx)
    · have hlen := hold.length_eq
      have := h.used
      rw [List.length_append] at hlen
      rw [List.length_eraseIdx_of_lt hp]
      omega
  · show HtInv t { ht.setChain i _ with used := ht.used }
    apply h.setChain hi'
    · intro x hx
      obtain ⟨j, hj, rfl⟩ := List.getElem_of_mem hx
      rw [List.getElem_modify]
      have hb := h.bucket i _ (List.getElem_mem (by simpa using hj : j < (ht.chain i).length))
      split <;> exact hb
    · rw [List.length_modify]
  · refine (hnew _).trans ?_
    rw [← List.cons_append]
    refine List.Perm.append_right rest ?_
    have : (ht.chain i).modify p (fun e => { e with val := v })
        = (ht.chain i).take p ++ { e with val := v } :: (ht.chain i).drop (p + 1) := by
      rw [List.modify_eq_take_cons_drop hp, hget]
    rw [this, List.eraseIdx_eq_take_drop_succ]
    exact List.perm_middle

theorem chain_nil_unlink (hi : i < ht.table.length) {j : Nat} (hj : ht.chain j = []) :
    (ht.unlink i p).chain j = [] := by
  show (ht.setChain i _).chain j = []
  rw [Dictht.chain_setChain hi]
  split
  · next h => subst h; simp [hj]
  · exact hj

theorem chain_nil_setValAt (hi : i < ht.table.length) {j : Nat} (hj : ht.chain j = []) (v : β) :
    (ht.setValAt i p v).chain j = [] := by
  show (ht.setChain i _).chain j = []
  rw [Dictht.chain_setChain hi]
  split
  · next h => subst h; simp [hj]
  · exact hj

end OneTable

/-- The key of an entry whose value changes stays, and with it the distinctness. -/
theorem distinct_setVal {e : DictEntry α β} {E : List (DictEntry α β)} (v : β)
    (h : (e :: E).Pairwise (fun a b => t.keyCompare a.key b.key = false)) :
    ({ e with val := v } :: E).Pairwise (fun a b => t.keyCompare a.key b.key = false) := by
  rw [List.pairwise_cons] at h ⊢
  exact h

/-- `dictSetVal` through a pointer into the dict. -/
theorem dictSetVal_spec (hl : t.Lawful) {d : Dict α β} (h : Inv t d) {r : Ref}
    {e : DictEntry α β} (he : entryAt d r = some e) (v : β) :
    ∃ rest, d.entries.Perm (e :: rest) ∧ Inv t (dictSetVal d r v) ∧
      (dictSetVal d r v).entries.Perm ({ e with val := v } :: rest) := by
  obtain ⟨second, i, p⟩ := r
  cases second with
  | false =>
      have he' : (d.ht0.chain i)[p]? = some e := he
      obtain ⟨rest, hold, _, hset⟩ := h.ht0.unlink_setVal he'
      obtain ⟨hinv, hperm⟩ := hset v
      have hp1 : d.entries.Perm (e :: (rest ++ d.ht1.entries)) := hold.append_right _
      have hp2 : (dictSetVal d ⟨false, i, p⟩ v).entries.Perm
          ({ e with val := v } :: (rest ++ d.ht1.entries)) := hperm.append_right _
      refine ⟨_, hp1, ⟨hinv, h.ht1, ?_, h.idle, ?_, h.behind⟩, hp2⟩
      · exact distinct_perm hl hp2.symm (distinct_setVal v (distinct_perm hl hp1 h.distinct))
      · intro idx hidx j hj
        exact chain_nil_setValAt (lt_of_getElem?_chain he') (h.drained idx hidx j hj) v
  | true =>
      have he' : (d.ht1.chain i)[p]? = some e := he
      obtain ⟨rest, hold, _, hset⟩ := h.ht1.unlink_setVal he'
      obtain ⟨hinv, hperm⟩ := hset v
      have hp1 : d.entries.Perm (e :: (d.ht0.entries ++ rest)) :=
        (hold.append_left _).trans List.perm_middle
      have hp2 : (dictSetVal d ⟨true, i, p⟩ v).entries.Perm
          ({ e with val := v } :: (d.ht0.entries ++ rest)) :=
        (hperm.append_left _).trans List.perm_middle
      refine ⟨_, hp1, ⟨h.ht0, hinv, ?_, h.idle, h.drained, h.behind⟩, hp2⟩
      exact distinct_perm hl hp2.symm (distinct_setVal v (distinct_perm hl hp1 h.distinct))

/-- Unlinking the entry behind a pointer. -/
theorem unlink_spec (hl : t.Lawful) {d : Dict α β} (h : Inv t d) {r : Ref}
    {e : DictEntry α β} (he : entryAt d r = some e) :
    ∃ d', d' = (if r.second then { d with ht1 := d.ht1.unlink r.bucket r.depth }
        else { d with ht0 := d.ht0.unlink r.bucket r.depth }) ∧
      Inv t d' ∧ d.entries.Perm (e :: d'.entries) := by
  obtain ⟨second, i, p⟩ := r
  refine ⟨_, rfl, ?_⟩
  cases second with
  | false =>
      have he' : (d.ht0.chain i)[p]? = some e := he
      obtain ⟨rest, hold, ⟨hinv, hperm⟩, _⟩ := h.ht0.unlink_setVal he'
      have hp : d.entries.Perm
          (e :: (({ d with ht0 := d.ht0.unlink i p } : Dict α β)).entries) :=
        (hold.append_right _).trans ((hperm.symm.append_right _).cons e)
      refine ⟨⟨hinv, h.ht1, ?_, h.idle, ?_, h.behind⟩, hp⟩
      · exact (List.pairwise_cons.mp (distinct_perm hl hp h.distinct)).2
      · intro idx hidx j hj
        exact chain_nil_unlink (lt_of_getElem?_chain he') (h.drained idx hidx j hj)
  | true =>
      have he' : (d.ht1.chain i)[p]? = some e := he
      obtain ⟨rest, hold, ⟨hinv, hperm⟩, _⟩ := h.ht1.unlink_setVal he'
      have hp : d.entries.Perm
          (e :: (({ d with ht1 := d.ht1.unlink i p } : Dict α β)).entries) :=
        (hold.append_left _).trans (List.perm_middle.trans
          ((hperm.symm.append_left _).cons e))
      refine ⟨⟨h.ht0, hinv, ?_, h.idle, h.drained, h.behind⟩, hp⟩
      exact (List.pairwise_cons.mp (distinct_perm hl hp h.distinct)).2

/-! ## The operations -/

/-- What a lookup says: the pointer leads to an entry of the key, and there is none
where it is null. -/
def Found (t : DictType α) (d : Dict α β) (key : α) : Option Ref → Prop
  | none => ∀ e ∈ d.entries, t.keyCompare key e.key = false
  | some r => ∃ e, entryAt d r = some e ∧ t.keyCompare key e.key = true

theorem locate_found (hl : t.Lawful) {d : Dict α β} (h : Inv t d) (key : α) :
    Found t d key (locate t d key) := by
  cases hs : locate t d key with
  | none => exact locate_none hl h hs
  | some r => exact locate_some hs

/-- A lookup makes one rehashing step at most. -/
theorem dictFind_fst (d : Dict α β) (key : α) :
    (dictFind t d key).1 = d ∨ (dictFind t d key).1 = rehashStepIfNeeded t d := by
  unfold dictFind
  split
  · exact Or.inl rfl
  · refine Or.inr ?_
    simp only
    repeat' split
    all_goals rfl

theorem dictFind_settled (d : Dict α β) (key : α) : Settled d (dictFind t d key).1 := by
  rcases dictFind_fst (t := t) d key with hd | hd
  · rw [hd]; exact Or.inl ⟨rfl, rfl, rfl⟩
  · rw [hd]; exact rehashStepIfNeeded_settled d

/-- The lookup in terms of the search. -/
theorem dictFind_eq {d : Dict α β} (hu : d.ht0.used + d.ht1.used ≠ 0) (key : α) :
    dictFind t d key = (rehashStepIfNeeded t d, locate t (rehashStepIfNeeded t d) key) := by
  simp only [dictFind, hu, if_false, locate]
  cases chainFind t key ((rehashStepIfNeeded t d).ht0.chain
    ((rehashStepIfNeeded t d).ht0.index t key)) with
  | some p => rfl
  | none =>
      cases hr : dictIsRehashing (rehashStepIfNeeded t d) with
      | false => rfl
      | true =>
          simp only [if_true]
          cases chainFind t key ((rehashStepIfNeeded t d).ht1.chain
            ((rehashStepIfNeeded t d).ht1.index t key)) <;> rfl

theorem dictFind_spec (hl : t.Lawful) {d : Dict α β} (h : Inv t d) (key : α) :
    Same t d (dictFind t d key).1 ∧
      Found t (dictFind t d key).1 key (dictFind t d key).2 := by
  by_cases hu : d.ht0.used + d.ht1.used = 0
  · simp only [dictFind, hu, if_true]
    refine ⟨Same.refl h, ?_⟩
    have hnil : d.entries = [] := List.eq_nil_of_length_eq_zero ((dictSize_eq h).symm.trans hu)
    intro e he
    rw [hnil] at he
    exact absurd he List.not_mem_nil
  · have hsame := rehashStepIfNeeded_spec hl h
    rw [dictFind_eq hu]
    exact ⟨hsame, locate_found hl hsame.inv key⟩

/-- The deletion in terms of the search. -/
theorem dictGenericDelete_eq {d : Dict α β} (hz : d.ht0.size ≠ 0) (key : α) :
    dictGenericDelete t d key = (match locate t (rehashStepIfNeeded t d) key with
      | none => (rehashStepIfNeeded t d, false)
      | some r => (if r.second then { rehashStepIfNeeded t d with
            ht1 := (rehashStepIfNeeded t d).ht1.unlink r.bucket r.depth }
          else { rehashStepIfNeeded t d with
            ht0 := (rehashStepIfNeeded t d).ht0.unlink r.bucket r.depth }, true)) := by
  simp only [dictGenericDelete, hz, if_false, locate]
  cases chainFind t key ((rehashStepIfNeeded t d).ht0.chain
    ((rehashStepIfNeeded t d).ht0.index t key)) with
  | some p => rfl
  | none =>
      cases hr : dictIsRehashing (rehashStepIfNeeded t d) with
      | false => rfl
      | true =>
          simp only [if_true]
          cases chainFind t key ((rehashStepIfNeeded t d).ht1.chain
            ((rehashStepIfNeeded t d).ht1.index t key)) <;> rfl

/-- `dictGenericDelete` takes the entry of the key away, and fails where there is
none. -/
theorem dictGenericDelete_spec (hl : t.Lawful) {d : Dict α β} (h : Inv t d) (key : α) :
    Inv t (dictGenericDelete t d key).1 ∧
      match (dictGenericDelete t d key).2 with
      | true => ∃ e, t.keyCompare key e.key = true ∧
          d.entries.Perm (e :: (dictGenericDelete t d key).1.entries)
      | false => (dictGenericDelete t d key).1.entries.Perm d.entries ∧
          ∀ e ∈ d.entries, t.keyCompare key e.key = false := by
  by_cases hz : d.ht0.size = 0
  · simp only [dictGenericDelete, hz, if_true]
    refine ⟨h, List.Perm.refl _, ?_⟩
    have hr : d.rehashidx = none := by
      cases hr : d.rehashidx with
      | none => rfl
      | some idx => exact absurd hz (h.behind idx hr).2
    have hnil : d.entries = [] := by
      rw [Dict.entries, h.ht1_entries_nil hr, Dictht.entries, h.ht0.entries_nil hz]
      rfl
    intro e he
    rw [hnil] at he
    exact absurd he List.not_mem_nil
  · have hsame := rehashStepIfNeeded_spec hl h
    rw [dictGenericDelete_eq hz]
    have hfound := locate_found hl hsame.inv key
    cases hs : locate t (rehashStepIfNeeded t d) key with
    | none =>
        rw [hs] at hfound
        refine ⟨hsame.inv, hsame.perm, fun e he => ?_⟩
        exact hfound e (hsame.perm.mem_iff.mpr he)
    | some r =>
        rw [hs] at hfound
        obtain ⟨e, he, hk⟩ := hfound
        obtain ⟨d', hd', hinv, hp⟩ := unlink_spec hl hsame.inv he
        simp only
        rw [← hd']
        exact ⟨hinv, e, hk, hsame.perm.symm.trans hp⟩

/-- The search for an insertion index, after the expansion. -/
theorem dictKeyIndex_eq (canResize : Bool) {d d' : Dict α β} (key : α)
    (he : dictExpandIfNeeded canResize d = some d') :
    dictKeyIndex t canResize d key = (d', match locate t d' key with
      | some _ => -1
      | none => CInt.toInt (if dictIsRehashing d' then d'.ht1.index t key
          else d'.ht0.index t key)) := by
  simp only [dictKeyIndex, he, locate]
  cases chainFind t key (d'.ht0.chain (d'.ht0.index t key)) with
  | some p => rfl
  | none =>
      cases hr : dictIsRehashing d' with
      | false => rfl
      | true =>
          simp only [Option.isSome_none, Bool.false_eq_true, if_false, if_true]
          cases chainFind t key (d'.ht1.chain (d'.ht1.index t key)) <;> rfl

/-- The insertion in terms of the search, after the expansion. -/
theorem dictAddRaw_eq (canResize : Bool) {d d' : Dict α β} (key : α) (junk : β)
    (he : dictExpandIfNeeded canResize (rehashStepIfNeeded t d) = some d') :
    dictAddRaw t canResize d key junk = (match (match locate t d' key with
        | some _ => -1
        | none => CInt.toInt (if dictIsRehashing d' then d'.ht1.index t key
            else d'.ht0.index t key)) with
      | .ofNat index =>
          if dictIsRehashing d' then
            ({ d' with ht1 := d'.ht1.insertTop index ⟨key, junk⟩ }, some ⟨true, index, 0⟩)
          else
            ({ d' with ht0 := d'.ht0.insertTop index ⟨key, junk⟩ }, some ⟨false, index, 0⟩)
      | .negSucc _ => (d', none)) := by
  simp only [dictAddRaw, dictKeyIndex_eq canResize key he]
  generalize (match locate t d' key with
    | some _ => (-1 : Int)
    | none => CInt.toInt (if dictIsRehashing d' then d'.ht1.index t key
        else d'.ht0.index t key)) = x
  cases x <;> rfl

/-- An index below `2 ^ 31` survives the conversion to `int`. -/
theorem toInt_ofNat {i : Nat} (h : i < 2 ^ 31) : CInt.toInt (i : Int) = Int.ofNat i :=
  CInt.toInt_eq (by omega) (by exact_mod_cast h)

/-- A new entry at the index `_dictKeyIndex` computes. -/
theorem insertTop_spec (hl : t.Lawful) {d : Dict α β} (h : Inv t d) (hne : d.ht0.size ≠ 0)
    {e : DictEntry α β} (hnew : ∀ x ∈ d.entries, t.keyCompare e.key x.key = false) :
    (dictIsRehashing d = true →
      Inv t { d with ht1 := d.ht1.insertTop (d.ht1.index t e.key) e } ∧
      ({ d with ht1 := d.ht1.insertTop (d.ht1.index t e.key) e } : Dict α β).entries.Perm
        (e :: d.entries)) ∧
    (dictIsRehashing d = false →
      Inv t { d with ht0 := d.ht0.insertTop (d.ht0.index t e.key) e } ∧
      ({ d with ht0 := d.ht0.insertTop (d.ht0.index t e.key) e } : Dict α β).entries.Perm
        (e :: d.entries)) := by
  have hdist : (e :: d.entries).Pairwise (fun a b => t.keyCompare a.key b.key = false) :=
    List.pairwise_cons.mpr ⟨hnew, h.distinct⟩
  constructor
  · intro hr
    obtain ⟨idx, hidx⟩ := Option.isSome_iff_exists.mp hr
    obtain ⟨hinv, hp⟩ := h.ht1.push (h.ht1_size_ne hidx) e
    have hperm : ({ d with ht1 := d.ht1.insertTop (d.ht1.index t e.key) e } :
        Dict α β).entries.Perm (e :: d.entries) :=
      (hp.append_left _).trans List.perm_middle
    exact ⟨⟨h.ht0, hinv, distinct_perm hl hperm.symm hdist, h.idle, h.drained, h.behind⟩, hperm⟩
  · intro hr
    have hidx := dictIsRehashing_eq_false.mp hr
    obtain ⟨hinv, hp⟩ := h.ht0.push hne e
    have hperm : ({ d with ht0 := d.ht0.insertTop (d.ht0.index t e.key) e } :
        Dict α β).entries.Perm (e :: d.entries) := hp.append_right _
    refine ⟨⟨hinv, h.ht1, distinct_perm hl hperm.symm hdist, h.idle, ?_, ?_⟩, hperm⟩
    · intro idx hs; rw [show d.rehashidx = some idx from hs] at hidx; exact absurd hidx (by simp)
    · intro idx hs; rw [show d.rehashidx = some idx from hs] at hidx; exact absurd hidx (by simp)

theorem entryAt_insertTop {ht : Dictht α β} (h : HtInv t ht) (hne : ht.size ≠ 0)
    (e : DictEntry α β) :
    ((ht.insertTop (ht.index t e.key) e).chain (ht.index t e.key))[0]? = some e := by
  have hi : ht.index t e.key < ht.table.length := h.length ▸ h.index_lt hne e.key
  show ((ht.setChain _ _).chain _)[0]? = some e
  rw [Dictht.chain_setChain hi, if_pos rfl]
  rfl

/-- `dictAddRaw` puts one entry in front, and fails where the key is present. -/
theorem dictAddRaw_spec (hl : t.Lawful) (canResize : Bool) {d : Dict α β} (h : Inv t d)
    (key : α) (junk : β) (hsmall' : Small (dictAddRaw t canResize d key junk).1) :
    Inv t (dictAddRaw t canResize d key junk).1 ∧
      match (dictAddRaw t canResize d key junk).2 with
      | some r => (dictAddRaw t canResize d key junk).1.entries.Perm (⟨key, junk⟩ :: d.entries) ∧
          entryAt (dictAddRaw t canResize d key junk).1 r = some ⟨key, junk⟩ ∧
          ∀ e ∈ d.entries, t.keyCompare key e.key = false
      | none => (dictAddRaw t canResize d key junk).1.entries.Perm d.entries ∧
          ∃ e ∈ d.entries, t.keyCompare key e.key = true := by
  have hsame := rehashStepIfNeeded_spec hl h
  obtain ⟨d₂, hd₂⟩ := dictExpandIfNeeded_isSome canResize hsame.inv
  have hidx := dictKeyIndex_eq (t := t) canResize key hd₂
  have hneg : (-1 : Int) = Int.negSucc 0 := rfl
  have key_absent : ∀ r, locate t d₂ key = some r →
      dictAddRaw t canResize d key junk = (d₂, none) := by
    intro r hr
    simp only [dictAddRaw, hidx, hr, hneg]
  have hmid : Small d₂ := by
    cases hloc : locate t d₂ key with
    | some r => rwa [key_absent r hloc] at hsmall'
    | none =>
        simp only [dictAddRaw, hidx, hloc] at hsmall'
        split at hsmall'
        · next heq =>
            rw [← (Prod.mk.inj heq).1] at hsmall'
            split at hsmall' <;> exact hsmall'
        · next heq => rwa [← (Prod.mk.inj heq).1] at hsmall'
  obtain ⟨hsame₂, hne⟩ := dictExpandIfNeeded_spec canResize hsame.inv hd₂ hmid.addressable
  have hall := hsame.trans hsame₂
  have hfound := locate_found hl hsame₂.inv key
  cases hloc : locate t d₂ key with
  | some r =>
      rw [hloc] at hfound
      obtain ⟨e, he, hk⟩ := hfound
      rw [key_absent r hloc]
      refine ⟨hall.inv, hall.perm, e, hall.perm.mem_iff.mp (mem_entries_of_entryAt he), hk⟩
  | none =>
      rw [hloc] at hfound
      have habsent : ∀ e ∈ d.entries, t.keyCompare key e.key = false :=
        fun e he => hfound e (hall.perm.mem_iff.mpr he)
      obtain ⟨hins1, hins0⟩ := insertTop_spec hl hall.inv hne (e := ⟨key, junk⟩) hfound
      cases hr : dictIsRehashing d₂ with
      | true =>
          obtain ⟨idx, hridx⟩ := Option.isSome_iff_exists.mp hr
          have hne1 := hall.inv.ht1_size_ne hridx
          have hlt : d₂.ht1.index t key < 2 ^ 31 :=
            Nat.lt_trans (hall.inv.ht1.index_lt hne1 key) hmid.2
          have hres : dictAddRaw t canResize d key junk =
              ({ d₂ with ht1 := d₂.ht1.insertTop (d₂.ht1.index t key) ⟨key, junk⟩ },
                some ⟨true, d₂.ht1.index t key, 0⟩) := by
            have hint := toInt_ofNat hlt
            simp only [dictAddRaw, hidx, hloc, hr, if_true, hint]
          rw [hres]
          obtain ⟨hinv, hp⟩ := hins1 hr
          exact ⟨hinv, hp.trans (hall.perm.cons _),
            entryAt_insertTop hall.inv.ht1 hne1 ⟨key, junk⟩, habsent⟩
      | false =>
          have hlt : d₂.ht0.index t key < 2 ^ 31 :=
            Nat.lt_trans (hall.inv.ht0.index_lt hne key) hmid.1
          have hres : dictAddRaw t canResize d key junk =
              ({ d₂ with ht0 := d₂.ht0.insertTop (d₂.ht0.index t key) ⟨key, junk⟩ },
                some ⟨false, d₂.ht0.index t key, 0⟩) := by
            have hint := toInt_ofNat hlt
            simp only [dictAddRaw, hidx, hloc, hr, if_false, hint, Bool.false_eq_true]
          rw [hres]
          obtain ⟨hinv, hp⟩ := hins0 hr
          exact ⟨hinv, hp.trans (hall.perm.cons _),
            entryAt_insertTop hall.inv.ht0 hne ⟨key, junk⟩, habsent⟩

end RedisCore
