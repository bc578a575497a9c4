/-
# `RedisCore.Dict.Refine` — the dict is a finite map

The abstract side is a function from keys to values, where a key is a class of keys
that compare equal.  `mapStep` says what each operation does to it and what it
answers; it knows nothing of tables, buckets or rehashing.

The bridge has three layers.

    Same, Perm     every function of dict.c, on the list of entries   (`Dict.Ops`)
    absMap         the entries as a map, one lemma per kind of change
    step_refines   one operation, then by induction a whole run

Bucket indices travel through an `int`, so the tables have to stay below `2 ^ 31`
along the run; `SmallRun` says that they do.
-/
import RedisCore.Dict.Ops
import RedisCore.Lib.KeyedMap

namespace RedisCore

open KeyedMap Classical

variable {α β : Type}

/-! ## The map a dict denotes -/

/-- Keys up to `keyCompare`. -/
def DictType.Lawful.setoid {t : DictType α} (hl : t.Lawful) : Setoid α where
  r := fun a b => t.keyCompare a b = true
  iseqv := ⟨hl.refl, hl.symm, hl.trans⟩

/-- The keys of the abstract map. -/
def AbsKey {t : DictType α} (hl : t.Lawful) : Type := Quotient hl.setoid

/-- The class of a key. -/
def absKey {t : DictType α} (hl : t.Lawful) (key : α) : AbsKey hl := Quotient.mk _ key

/-- An entry, seen from the map. -/
def binding {t : DictType α} (hl : t.Lawful) (e : DictEntry α β) : AbsKey hl × β :=
  (absKey hl e.key, e.val)

/-- The map a dict denotes. -/
noncomputable def absMap {t : DictType α} (hl : t.Lawful) (d : Dict α β) : AbsKey hl → Option β :=
  toMap (d.entries.map (binding hl))

variable {t : DictType α} (hl : t.Lawful)

theorem absKey_eq_iff {a b : α} : absKey hl a = absKey hl b ↔ t.keyCompare a b = true :=
  ⟨fun h => Quotient.exact h, fun h => Quotient.sound h⟩

theorem distinct_bindings {E : List (DictEntry α β)}
    (h : E.Pairwise (fun a b => t.keyCompare a.key b.key = false)) :
    Distinct (E.map (binding hl)) := by
  rw [Distinct, List.map_map, List.Nodup, List.pairwise_map]
  refine h.imp ?_
  intro a b hab heq
  rw [(absKey_eq_iff hl).mp heq] at hab
  exact absurd hab (by simp)

section Changes

variable {d d' : Dict α β}

theorem absMap_of_perm (h : Inv t d) (hp : d'.entries.Perm d.entries) : absMap hl d' = absMap hl d :=
  toMap_perm ((distinct_bindings hl h.distinct).perm (hp.symm.map _)) (hp.map _)

theorem absMap_insert (h' : Inv t d') {e : DictEntry α β} (hp : d'.entries.Perm (e :: d.entries)) :
    absMap hl d' = Function.update (absMap hl d) (absKey hl e.key) (some e.val) := by
  have := toMap_perm (distinct_bindings hl h'.distinct) (hp.map (binding hl))
  rw [List.map_cons, toMap_cons] at this
  exact this

theorem absMap_delete (h : Inv t d) {e : DictEntry α β} (hp : d.entries.Perm (e :: d'.entries)) :
    absMap hl d' = Function.update (absMap hl d) (absKey hl e.key) none := by
  have hdist := (distinct_bindings hl h.distinct).perm (hp.map _)
  have hmap := toMap_perm (distinct_bindings hl h.distinct) (hp.map (binding hl))
  rw [absMap, absMap, hmap]
  exact toMap_tail (b := binding hl e) hdist

theorem absMap_setVal (h : Inv t d) (h' : Inv t d') {e : DictEntry α β} {v : β}
    {rest : List (DictEntry α β)} (hp : d.entries.Perm (e :: rest))
    (hp' : d'.entries.Perm ({ e with val := v } :: rest)) :
    absMap hl d' = Function.update (absMap hl d) (absKey hl e.key) (some v) := by
  have hm := toMap_perm (distinct_bindings hl h.distinct) (hp.map (binding hl))
  have hm' := toMap_perm (distinct_bindings hl h'.distinct) (hp'.map (binding hl))
  rw [List.map_cons, toMap_cons] at hm hm'
  rw [absMap, absMap, hm, hm']
  exact (@Function.update_idem _ _ (fun _ => Option β) (absKey hl e.key) (some e.val) (some v) _).symm

theorem absMap_absent {key : α} :
    absMap hl d (absKey hl key) = none ↔ ∀ e ∈ d.entries, t.keyCompare key e.key = false := by
  rw [absMap, toMap_eq_none_iff, List.map_map, List.mem_map]
  constructor
  · intro h e he
    by_contra hne
    exact h ⟨e, he, ((absKey_eq_iff hl).mpr (Bool.not_eq_false _ |>.mp hne)).symm⟩
  · rintro h ⟨e, he, heq⟩
    have hne := h e he
    rw [(absKey_eq_iff hl).mp heq.symm] at hne
    exact absurd hne (by simp)

theorem absMap_present (h : Inv t d) {key : α} {e : DictEntry α β} (he : e ∈ d.entries)
    (hk : t.keyCompare key e.key = true) : absMap hl d (absKey hl key) = some e.val := by
  rw [(absKey_eq_iff hl).mpr hk]
  exact toMap_of_mem (b := binding hl e) (distinct_bindings hl h.distinct) (List.mem_map_of_mem he)

theorem card_absMap (h : Inv t d) : card (absMap hl d) = dictSize d := by
  rw [absMap, card_toMap (distinct_bindings hl h.distinct), List.length_map, dictSize_eq h]

end Changes

/-! ## Operations on both sides -/

/-- The calls of a run.  `junk` is what the allocator left in a new entry's value. -/
inductive DictOp (α β : Type) where
  | add (canResize : Bool) (key : α) (val junk : β)
  | addRaw (canResize : Bool) (key : α) (junk : β)
  | replace (canResize : Bool) (key : α) (val junk : β)
  | delete (key : α)
  | deleteNoFree (key : α)
  | find (key : α)
  | fetchValue (key : α)
  | rehash (n : Int)
  | expand (size : Nat)
  | resize (canResize : Bool)
  | iterStart
  | iterRelease

/-- What a call answers; the answers of the rehashing calls are about tables, and
no map has one. -/
inductive DictRet (β : Type) where
  | status (ok : Bool)
  | value (v : Option β)
  | silent

/-- One call of dict.c. -/
def dictStep (t : DictType α) (d : Dict α β) : DictOp α β → Dict α β × DictRet β
  | .add canResize key val junk =>
      let (d, ok) := dictAdd t canResize d key val junk
      (d, .status ok)
  | .addRaw canResize key junk =>
      let (d, entry) := dictAddRaw t canResize d key junk
      (d, .status entry.isSome)
  | .replace canResize key val junk =>
      let (d, added) := dictReplace t canResize d key val junk
      (d, .status added)
  | .delete key =>
      let (d, ok) := dictDelete t d key
      (d, .status ok)
  | .deleteNoFree key =>
      let (d, ok) := dictDeleteNoFree t d key
      (d, .status ok)
  | .find key =>
      let (d, entry) := dictFind t d key
      (d, .value (entry.bind (dictGetVal d)))
  | .fetchValue key =>
      let (d, v) := dictFetchValue t d key
      (d, .value v)
  | .rehash n => ((dictRehash t d n).1, .silent)
  | .expand size => ((dictExpand d size).getD d, .silent)
  | .resize canResize => ((dictResize canResize d).getD d, .silent)
  | .iterStart => (iteratorStart d, .silent)
  | .iterRelease => (iteratorRelease d, .silent)

/-- The state after a run, and every answer in order. -/
def dictRun (t : DictType α) (d : Dict α β) : List (DictOp α β) → Dict α β × List (DictRet β)
  | [] => (d, [])
  | op :: ops =>
      let (d, r) := dictStep t d op
      let (d, rs) := dictRun t d ops
      (d, r :: rs)

/-- No state of the run has a table of `2 ^ 31` buckets or more. -/
def SmallRun (t : DictType α) (d : Dict α β) : List (DictOp α β) → Prop
  | [] => Small d
  | op :: ops => Small d ∧ SmallRun t (dictStep t d op).1 ops

/-- One operation of a map. -/
noncomputable def mapStep (m : AbsKey hl → Option β) :
    DictOp α β → (AbsKey hl → Option β) × DictRet β
  | .add _ key val _ =>
      if m (absKey hl key) = none then
        (Function.update m (absKey hl key) (some val), .status true)
      else (m, .status false)
  | .addRaw _ key junk =>
      if m (absKey hl key) = none then
        (Function.update m (absKey hl key) (some junk), .status true)
      else (m, .status false)
  | .replace _ key val _ =>
      (Function.update m (absKey hl key) (some val), .status (decide (m (absKey hl key) = none)))
  | .delete key | .deleteNoFree key =>
      (Function.update m (absKey hl key) none, .status (decide (m (absKey hl key) ≠ none)))
  | .find key | .fetchValue key => (m, .value (m (absKey hl key)))
  | .rehash _ | .expand _ | .resize _ | .iterStart | .iterRelease => (m, .silent)

/-- A run of a map. -/
noncomputable def mapRun (m : AbsKey hl → Option β) :
    List (DictOp α β) → (AbsKey hl → Option β) × List (DictRet β)
  | [] => (m, [])
  | op :: ops => ((mapRun (mapStep hl m op).1 ops).1,
      (mapStep hl m op).2 :: (mapRun (mapStep hl m op).1 ops).2)

/-! ## One step refines -/

theorem iteratorStart_same {d : Dict α β} (h : Inv t d) : Inv t (iteratorStart d) :=
  ⟨h.ht0, h.ht1, h.distinct, h.idle, h.drained, h.behind⟩

theorem iteratorRelease_same {d : Dict α β} (h : Inv t d) : Inv t (iteratorRelease d) :=
  ⟨h.ht0, h.ht1, h.distinct, h.idle, h.drained, h.behind⟩

/-- The dict is well formed and denotes the map. -/
structure Denotes (d : Dict α β) (m : AbsKey hl → Option β) : Prop where
  inv : Inv t d
  map : absMap hl d = m

theorem Denotes.same {d d' : Dict α β} {m : AbsKey hl → Option β} (h : Denotes hl d m)
    (hs : Same t d d') : Denotes hl d' m :=
  ⟨hs.inv, (absMap_of_perm hl h.inv hs.perm).trans h.map⟩

/-- A lookup answers what the map holds. -/
theorem Denotes.found {d : Dict α β} {m : AbsKey hl → Option β} (h : Denotes hl d m) {key : α}
    {r : Option Ref} (hf : Found t d key r) : r.bind (dictGetVal d) = m (absKey hl key) := by
  rw [← h.map]
  cases r with
  | none => exact ((absMap_absent hl).mpr hf).symm
  | some r =>
      obtain ⟨e, he, hk⟩ := hf
      rw [absMap_present hl h.inv (mem_entries_of_entryAt he) hk]
      simp [dictGetVal, he]

theorem Denotes.setVal {d : Dict α β} {m : AbsKey hl → Option β} (h : Denotes hl d m) {key : α}
    {r : Ref} {e : DictEntry α β} (he : entryAt d r = some e) (hk : t.keyCompare key e.key = true)
    (v : β) : Denotes hl (dictSetVal d r v) (Function.update m (absKey hl key) (some v)) := by
  obtain ⟨rest, hp, hinv, hp'⟩ := dictSetVal_spec hl h.inv he v
  refine ⟨hinv, ?_⟩
  rw [absMap_setVal hl h.inv hinv hp hp', h.map, (absKey_eq_iff hl).mpr hk]

/-- `dictFind`. -/
theorem find_refines {d : Dict α β} {m : AbsKey hl → Option β} (h : Denotes hl d m) (key : α) :
    Denotes hl (dictFind t d key).1 m ∧
      (dictFind t d key).2.bind (dictGetVal (dictFind t d key).1) = m (absKey hl key) := by
  obtain ⟨hsame, hf⟩ := dictFind_spec hl h.inv key
  exact ⟨h.same hl hsame, (h.same hl hsame).found hl hf⟩

/-- `dictGenericDelete`. -/
theorem delete_refines {d : Dict α β} {m : AbsKey hl → Option β} (h : Denotes hl d m) (key : α) :
    Denotes hl (dictGenericDelete t d key).1 (Function.update m (absKey hl key) none) ∧
      (dictGenericDelete t d key).2 = decide (m (absKey hl key) ≠ none) := by
  obtain ⟨hinv, hs⟩ := dictGenericDelete_spec hl h.inv key
  cases hr : (dictGenericDelete t d key).2 with
  | true =>
      rw [hr] at hs
      obtain ⟨e, hk, hp⟩ := hs
      have hmem : e ∈ d.entries := hp.mem_iff.mpr List.mem_cons_self
      refine ⟨⟨hinv, ?_⟩, ?_⟩
      · rw [absMap_delete hl h.inv hp, h.map, (absKey_eq_iff hl).mpr hk]
      · rw [← h.map, absMap_present hl h.inv hmem hk]
        simp
  | false =>
      rw [hr] at hs
      have hm : m (absKey hl key) = none := by rw [← h.map]; exact (absMap_absent hl).mpr hs.2
      refine ⟨⟨hinv, ?_⟩, by simp [hm]⟩
      rw [absMap_of_perm hl h.inv hs.1, h.map, ← hm, Function.update_eq_self]

/-- `dictAddRaw`. -/
theorem addRaw_refines (canResize : Bool) {d : Dict α β} {m : AbsKey hl → Option β}
    (h : Denotes hl d m) (key : α) (junk : β)
    (hsmall : Small (dictAddRaw t canResize d key junk).1) :
    (m (absKey hl key) = none →
      Denotes hl (dictAddRaw t canResize d key junk).1
        (Function.update m (absKey hl key) (some junk)) ∧
      ∃ r, (dictAddRaw t canResize d key junk).2 = some r ∧
        entryAt (dictAddRaw t canResize d key junk).1 r = some ⟨key, junk⟩) ∧
    (m (absKey hl key) ≠ none →
      Denotes hl (dictAddRaw t canResize d key junk).1 m ∧
      (dictAddRaw t canResize d key junk).2 = none) := by
  obtain ⟨hinv, hs⟩ := dictAddRaw_spec hl canResize h.inv key junk hsmall
  cases hr : (dictAddRaw t canResize d key junk).2 with
  | some r =>
      rw [hr] at hs
      obtain ⟨hp, he, habs⟩ := hs
      have hm : m (absKey hl key) = none := by rw [← h.map]; exact (absMap_absent hl).mpr habs
      refine ⟨fun _ => ⟨⟨hinv, ?_⟩, r, rfl, he⟩, fun hne => absurd hm hne⟩
      rw [absMap_insert hl hinv hp, h.map]
  | none =>
      rw [hr] at hs
      obtain ⟨hp, e, he, hk⟩ := hs
      have hm : m (absKey hl key) = some e.val := by
        rw [← h.map]; exact absMap_present hl h.inv he hk
      refine ⟨fun hn => absurd hn (by simp [hm]), fun _ => ⟨⟨hinv, ?_⟩, rfl⟩⟩
      rw [absMap_of_perm hl h.inv hp, h.map]

theorem dictAdd_eq (canResize : Bool) (d : Dict α β) (key : α) (val junk : β) :
    dictAdd t canResize d key val junk = (match (dictAddRaw t canResize d key junk).2 with
      | none => ((dictAddRaw t canResize d key junk).1, false)
      | some r => (dictSetVal (dictAddRaw t canResize d key junk).1 r val, true)) := by
  unfold dictAdd
  cases dictAddRaw t canResize d key junk with
  | mk d' r => cases r <;> rfl

theorem small_dictSetVal {d : Dict α β} {r : Ref} {v : β} : Small (dictSetVal d r v) ↔ Small d := by
  unfold dictSetVal
  split <;> exact Iff.rfl

theorem dictAdd_small (canResize : Bool) {d : Dict α β} {key : α} {val junk : β} :
    Small (dictAdd t canResize d key val junk).1 ↔ Small (dictAddRaw t canResize d key junk).1 := by
  rw [dictAdd_eq]
  cases (dictAddRaw t canResize d key junk).2 with
  | none => exact Iff.rfl
  | some r => exact small_dictSetVal

/-- `dictAdd`. -/
theorem add_refines (canResize : Bool) {d : Dict α β} {m : AbsKey hl → Option β}
    (h : Denotes hl d m) (key : α) (val junk : β)
    (hsmall : Small (dictAdd t canResize d key val junk).1) :
    (m (absKey hl key) = none →
      Denotes hl (dictAdd t canResize d key val junk).1
        (Function.update m (absKey hl key) (some val)) ∧
      (dictAdd t canResize d key val junk).2 = true) ∧
    (m (absKey hl key) ≠ none →
      Denotes hl (dictAdd t canResize d key val junk).1 m ∧
      (dictAdd t canResize d key val junk).2 = false) := by
  obtain ⟨hnew, hold⟩ :=
    addRaw_refines hl canResize h key junk ((dictAdd_small canResize).mp hsmall)
  rw [dictAdd_eq]
  constructor
  · intro hm
    obtain ⟨hden, r, hr, he⟩ := hnew hm
    rw [hr]
    refine ⟨?_, rfl⟩
    have := hden.setVal hl he (hl.refl key) val
    rwa [Function.update_idem] at this
  · intro hm
    obtain ⟨hden, hr⟩ := hold hm
    rw [hr]
    exact ⟨hden, rfl⟩

/-- The dict between the two halves of `dictReplace` is no larger than the dicts
around it. -/
theorem small_of_failed_add (hl : t.Lawful) (canResize : Bool) {d : Dict α β} (h : Inv t d) (hs : Small d)
    {key : α} {val junk : β} (hf : (dictAdd t canResize d key val junk).2 = false)
    {d' : Dict α β} (hset : Settled (dictAdd t canResize d key val junk).1 d') (hs' : Small d') :
    Small (dictAdd t canResize d key val junk).1 := by
  have hsame := rehashStepIfNeeded_spec hl h
  obtain ⟨d₂, hd₂⟩ := dictExpandIfNeeded_isSome canResize hsame.inv
  have hidx := dictKeyIndex_eq (t := t) canResize key hd₂
  -- a failed insertion leaves the dict the expansion produced
  have hd : (dictAdd t canResize d key val junk).1 = d₂ := by
    rw [dictAdd_eq] at hf ⊢
    cases hr : (dictAddRaw t canResize d key junk).2 with
    | some r => rw [hr] at hf; exact absurd hf (by simp)
    | none =>
        simp only [dictAddRaw, hidx] at hr ⊢
        split at hr
        · split at hr <;> exact absurd hr (by simp)
        · next heq => simp only; exact (Prod.mk.inj heq).1.symm
  rw [hd] at hset ⊢
  rcases hset with ⟨h0, h1, _⟩ | ⟨hre, h0, _, _⟩
  · exact ⟨h0 ▸ hs'.1, h1 ▸ hs'.2⟩
  · rcases dictExpandIfNeeded_ht0 canResize hsame.inv hd₂ with hsz | ⟨hn, _⟩
    · exact ⟨hsz ▸ ((rehashStepIfNeeded_settled d).small hs).1, h0 ▸ hs'.1⟩
    · rw [hn] at hre
      exact absurd hre (by simp)

theorem dictReplace_eq (canResize : Bool) (d : Dict α β) (key : α) (val junk : β) :
    dictReplace t canResize d key val junk =
      (match (dictAdd t canResize d key val junk).2 with
      | true => ((dictAdd t canResize d key val junk).1, true)
      | false =>
          match (dictFind t (dictAdd t canResize d key val junk).1 key).2 with
          | some r =>
              (dictSetVal (dictFind t (dictAdd t canResize d key val junk).1 key).1 r val, false)
          | none => ((dictFind t (dictAdd t canResize d key val junk).1 key).1, false)) := by
  unfold dictReplace
  cases dictAdd t canResize d key val junk with
  | mk d₁ ok =>
      cases ok with
      | true => rfl
      | false =>
          simp only
          cases dictFind t d₁ key with
          | mk d₂ r => cases r <;> rfl

theorem dictReplace_small (hl : t.Lawful) (canResize : Bool) {d : Dict α β} (h : Inv t d)
    (hs : Small d) {key : α} {val junk : β}
    (hsmall : Small (dictReplace t canResize d key val junk).1) :
    Small (dictAdd t canResize d key val junk).1 := by
  rw [dictReplace_eq] at hsmall
  cases hadd : (dictAdd t canResize d key val junk).2 with
  | true => rwa [hadd] at hsmall
  | false =>
      rw [hadd] at hsmall
      refine small_of_failed_add hl canResize h hs hadd (dictFind_settled (t := t) _ key) ?_
      cases hr : (dictFind t (dictAdd t canResize d key val junk).1 key).2 with
      | none => rwa [hr] at hsmall
      | some r => rw [hr] at hsmall; exact small_dictSetVal.mp hsmall

/-- `dictReplace`. -/
theorem replace_refines (canResize : Bool) {d : Dict α β} {m : AbsKey hl → Option β}
    (h : Denotes hl d m) (hs : Small d) (key : α) (val junk : β)
    (hsmall : Small (dictReplace t canResize d key val junk).1) :
    Denotes hl (dictReplace t canResize d key val junk).1
        (Function.update m (absKey hl key) (some val)) ∧
      (dictReplace t canResize d key val junk).2 = decide (m (absKey hl key) = none) := by
  obtain ⟨hnew, hold⟩ :=
    add_refines hl canResize h key val junk (dictReplace_small hl canResize h.inv hs hsmall)
  rw [dictReplace_eq]
  by_cases hm : m (absKey hl key) = none
  · obtain ⟨hden, hadd⟩ := hnew hm
    rw [hadd]
    exact ⟨hden, by simp [hm]⟩
  · obtain ⟨hden, hadd⟩ := hold hm
    rw [hadd]
    -- the key is present, so the second half finds it
    obtain ⟨hsame, hf⟩ := dictFind_spec hl hden.inv key
    have hden' := hden.same hl hsame
    cases hr : (dictFind t (dictAdd t canResize d key val junk).1 key).2 with
    | none =>
        rw [hr] at hf
        exact absurd (hden'.found hl hf).symm hm
    | some r =>
        rw [hr] at hf
        obtain ⟨e, he, hk⟩ := hf
        exact ⟨hden'.setVal hl he hk val, by simp [hm]⟩

/-- `dictExpand`, whether it succeeds or not. -/
theorem dictExpand_same {d : Dict α β} (h : Inv t d) (size : Nat)
    (hsmall : Small ((dictExpand d size).getD d)) : Same t d ((dictExpand d size).getD d) := by
  cases he : dictExpand d size with
  | none => exact Same.refl h
  | some d' =>
      rw [he] at hsmall
      exact (dictExpand_spec h he hsmall.addressable).1

/-- `dictResize`. -/
theorem dictResize_same {d : Dict α β} (h : Inv t d) (canResize : Bool)
    (hsmall : Small ((dictResize canResize d).getD d)) :
    Same t d ((dictResize canResize d).getD d) := by
  have hcases : dictResize canResize d = none ∨
      ∃ size, dictResize canResize d = dictExpand d size := by
    unfold dictResize
    split
    · exact Or.inl rfl
    · exact Or.inr ⟨_, rfl⟩
  rcases hcases with hn | ⟨size, he⟩
  · rw [hn]; exact Same.refl h
  · rw [he] at hsmall ⊢
    exact dictExpand_same h size hsmall

/-- One operation on the dict is the same operation on the map. -/
theorem step_refines {d : Dict α β} {m : AbsKey hl → Option β} (h : Denotes hl d m)
    (hs : Small d) (op : DictOp α β) (hsmall : Small (dictStep t d op).1) :
    Denotes hl (dictStep t d op).1 (mapStep hl m op).1 ∧
      (dictStep t d op).2 = (mapStep hl m op).2 := by
  cases op with
  | add canResize key val junk =>
      obtain ⟨hnew, hold⟩ := add_refines hl canResize h key val junk hsmall
      by_cases hm : m (absKey hl key) = none
      · simp only [mapStep, hm, if_true]
        exact ⟨(hnew hm).1, congrArg DictRet.status (hnew hm).2⟩
      · simp only [mapStep, hm, if_false]
        exact ⟨(hold hm).1, congrArg DictRet.status (hold hm).2⟩
  | addRaw canResize key junk =>
      obtain ⟨hnew, hold⟩ := addRaw_refines hl canResize h key junk hsmall
      by_cases hm : m (absKey hl key) = none
      · obtain ⟨hden, r, hr, _⟩ := hnew hm
        simp only [mapStep, hm, if_true]
        exact ⟨hden, congrArg DictRet.status (congrArg Option.isSome hr)⟩
      · obtain ⟨hden, hr⟩ := hold hm
        simp only [mapStep, hm, if_false]
        exact ⟨hden, congrArg DictRet.status (congrArg Option.isSome hr)⟩
  | replace canResize key val junk =>
      obtain ⟨hden, hr⟩ := replace_refines hl canResize h hs key val junk hsmall
      exact ⟨hden, congrArg DictRet.status hr⟩
  | delete key =>
      obtain ⟨hden, hr⟩ := delete_refines hl h key
      exact ⟨hden, congrArg DictRet.status hr⟩
  | deleteNoFree key =>
      obtain ⟨hden, hr⟩ := delete_refines hl h key
      exact ⟨hden, congrArg DictRet.status hr⟩
  | find key =>
      obtain ⟨hden, hr⟩ := find_refines hl h key
      exact ⟨hden, congrArg DictRet.value hr⟩
  | fetchValue key =>
      obtain ⟨hden, hr⟩ := find_refines hl h key
      exact ⟨hden, congrArg DictRet.value hr⟩
  | rehash n => exact ⟨h.same hl (dictRehash_spec hl h.inv n), rfl⟩
  | expand size => exact ⟨h.same hl (dictExpand_same h.inv size hsmall), rfl⟩
  | resize canResize => exact ⟨h.same hl (dictResize_same h.inv canResize hsmall), rfl⟩
  | iterStart => exact ⟨⟨iteratorStart_same h.inv, h.map⟩, rfl⟩
  | iterRelease => exact ⟨⟨iteratorRelease_same h.inv, h.map⟩, rfl⟩

/-! ## Whole runs -/

theorem SmallRun.head {d : Dict α β} {ops : List (DictOp α β)} (h : SmallRun t d ops) :
    Small d := by
  cases ops with
  | nil => exact h
  | cons op ops => exact h.1

theorem run_refines (ops : List (DictOp α β)) : ∀ {d : Dict α β} {m : AbsKey hl → Option β},
    Denotes hl d m → SmallRun t d ops →
      Denotes hl (dictRun t d ops).1 (mapRun hl m ops).1 ∧
        (dictRun t d ops).2 = (mapRun hl m ops).2 := by
  induction ops with
  | nil => intro d m h _; exact ⟨h, rfl⟩
  | cons op ops ih =>
      intro d m h hs
      obtain ⟨hden, hret⟩ := step_refines hl h hs.1 op hs.2.head
      obtain ⟨hden', hret'⟩ := ih hden hs.2
      exact ⟨hden', congrArg₂ List.cons hret hret'⟩

/-- The empty dict denotes the empty map. -/
theorem denotes_dictCreate : Denotes hl (dictCreate : Dict α β) (fun _ => none) :=
  ⟨inv_dictCreate, rfl⟩

/-- Every run from the empty dict answers what the same run of a finite map answers,
and leaves a well-formed dict that denotes the map: a fetch returns the map's value,
a lookup is null exactly where the map has none, and `dictSize` is its cardinality. -/
theorem dict_refines_map (ops : List (DictOp α β)) (hsmall : SmallRun t dictCreate ops) :
    (dictRun t dictCreate ops).2 = (mapRun hl (fun _ => none) ops).2 ∧
    Inv t (dictRun t dictCreate ops).1 ∧
    (∀ key, (dictFetchValue t (dictRun t dictCreate ops).1 key).2
      = (mapRun hl (fun _ => none) ops).1 (absKey hl key)) ∧
    (∀ key, (dictFind t (dictRun t dictCreate ops).1 key).2 = none
      ↔ (mapRun hl (fun _ => none) ops).1 (absKey hl key) = none) ∧
    dictSize (dictRun t dictCreate ops).1 = card (mapRun hl (fun _ => none) ops).1 := by
  obtain ⟨hden, hret⟩ := run_refines hl ops (denotes_dictCreate hl) hsmall
  refine ⟨hret, hden.inv, fun key => (find_refines hl hden key).2, fun key => ?_, ?_⟩
  · obtain ⟨hsame, hf⟩ := dictFind_spec hl hden.inv key
    have hfound := (hden.same hl hsame).found hl hf
    rw [← hfound]
    cases hr : (dictFind t (dictRun t dictCreate ops).1 key).2 with
    | none => simp
    | some r =>
        rw [hr] at hf
        obtain ⟨e, he, _⟩ := hf
        simp [dictGetVal, he]
  · rw [← card_absMap hl hden.inv, hden.map]

/-! ## A run -/

instance (d : Dict α β) : Decidable (Small d) := inferInstanceAs (Decidable (_ ∧ _))

instance decidableSmallRun (t : DictType α) :
    ∀ (d : Dict α β) (ops : List (DictOp α β)), Decidable (SmallRun t d ops)
  | d, [] => inferInstanceAs (Decidable (Small d))
  | d, op :: ops =>
      have := decidableSmallRun t (dictStep t d op).1 ops
      inferInstanceAs (Decidable (_ ∧ _))

/-- Numbers as keys, each its own hash. -/
def natType : DictType Nat := ⟨fun n => n, fun a b => decide (a = b)⟩

theorem natType_lawful : natType.Lawful where
  refl := fun a => by simp [natType]
  symm := fun h => by simp only [natType, decide_eq_true_eq] at h ⊢; exact h.symm
  trans := fun h₁ h₂ => by simp only [natType, decide_eq_true_eq] at h₁ h₂ ⊢; exact h₁.trans h₂
  hash := fun h => by simpa [natType] using h

/-- Five insertions start a rehash, an iterator holds it up, and every kind of call
follows. -/
def mixedOps : List (DictOp Nat Nat) :=
  [.add true 1 10 0, .add true 5 50 0, .add true 9 90 0, .addRaw true 2 7, .add true 13 130 0,
   .iterStart, .replace true 9 91 0, .replace true 3 30 0, .iterRelease, .delete 5, .find 1,
   .fetchValue 13, .rehash 2, .add true 1 11 0, .deleteNoFree 8, .rehash 100, .delete 1,
   .expand 64, .rehash 3, .resize true, .fetchValue 9]

theorem dict_refines_map_mixed :
    SmallRun natType dictCreate mixedOps ∧
    (dictRun natType dictCreate mixedOps).2
      = (mapRun natType_lawful (fun _ => none) mixedOps).2 := by
  have hsmall : SmallRun natType dictCreate mixedOps := by decide
  exact ⟨hsmall, (dict_refines_map natType_lawful mixedOps hsmall).1⟩

end RedisCore
