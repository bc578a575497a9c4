/-
# `RedisCore.Quicklist.Moves` — the last element moved to the front

`quicklistRotate` pushes the last element at the head and deletes it at the tail.  If there is one
node, with room for it, the string to be pushed lies in the ziplist that is moved to make room, and
it is copied after that: what arrives at the head is what is found in its place.  An integer is
known before, and a new node does not touch the old one.
-/
import RedisCore.Quicklist.Deque

namespace RedisCore

namespace Quicklist

open CInt Marked Ziplist

variable {pf : Platform} {ql ql' : QuickList} {p : Nat} {ns as bs : Shape} {es es' : List Entry}
  {left : List Entry} {e : Entry} {late : Nat → UInt8}

/-- The last element in front of the others. -/
def rotated {α : Type} (l : List α) : List α := l.getLast?.toList ++ l.dropLast

theorem rotated_concat {α : Type} (l : List α) (x : α) : rotated (l ++ [x]) = x :: l := by
  unfold rotated
  rw [List.getLast?_concat, List.dropLast_concat]
  rfl

/-! ## Small nodes -/

/-- The strings of small nodes are short. -/
theorem Sized.short (h : Sized ns) (hn : (p, es) ∈ ns) (he : e ∈ es) : e.bytes.length < 2 ^ 31 - 13 := by
  have hsize := h _ hn
  obtain ⟨left, right, rfl⟩ := List.append_of_mem he
  dsimp only at hsize
  rw [size_append, size_cons] at hsize
  by_cases hlong : 16384 ≤ e.bytes.length
  · have := e.length_bytes_long hlong
    omega
  · omega

theorem Sized.edited (h : Sized (as ++ (p, es) :: bs)) (hsize : 11 + size es' ≤ 2 ^ 31 + 3) :
    Sized (as ++ (p, es') :: bs) := by
  intro n hn
  rcases mem_middle hn with rfl | hin
  · exact hsize
  · exact h n (mem_around hin)

/-! ## Rotating -/

/-- The deletion at the tail, of the entry that was found before or is looked for again. -/
theorem gives_dropTail {zi : Option Nat} (h : Stores pf ql (as ++ [(p, left ++ [e])]))
    (hsettled : Settled pf ql) (hsized : Sized (as ++ [(p, left ++ [e])]))
    (hzi : ql.len = 1 ∨ zi = some (10 + size left)) :
    Gives (do
      let ql ← get
      let tail ← deref ql.tail
      let zi ← (if ql.len = 1 then do orFail .memory (ziplistIndex (← rawAt tail) (-1)) else pure zi)
      let _ ← quicklistDelIndex pf tail (← deref zi))
      (fun _ ql' => IsDeque pf ql' (elements as ++ contents left)) ql := by
  have hend : AtEnd as [] .TAIL := rfl
  have htail : ql.tail = some p := h.toNodes.endOf hend
  have hp : p ∈ ql.nodes := h.toNodes.mem mem_self
  obtain ⟨zl, hzl, -, hrep⟩ := (h.holds _ mem_self).of_raw (hsettled.toKempt.endOf (h.toNodes.endOf hend))
  have hindex : ziplistIndex zl (-1) = some (some (10 + size left)) :=
    @ziplistIndex_end .TAIL left [] e zl hrep (fun hw => by cases hw) fun _ => rfl
  have hdelete := gives_deleteEnd h hsettled hsized hend (fun hw => (by cases hw)) fun _ => rfl
  rw [(@elements_at p as [] .TAIL left [] e hend (fun hw => (by cases hw)) fun _ => rfl).2] at hdelete
  rw [contents_nil, elements_nil, List.append_nil, List.append_nil] at hdelete
  unfold Gives deref
  rw [yields_bind, yields_get, yields_bind, htail, yields_orFail, yields_bind, yields_ite]
  by_cases hone : ql.len = 1
  · rw [if_pos hone, yields_bind]
    refine gives_rawAt hp hzl ?_
    rw [hindex, yields_orFail, yields_bind, yields_orFail, yields_bind]
    exact yields_mono hdelete fun _ _ hql' => hql'.2
  · rw [if_neg hone, yields_pure, hzi.resolve_left hone, yields_bind, yields_orFail, yields_bind]
    exact yields_mono hdelete fun _ _ hql' => hql'.2

/-- The last element is a string in the only node, and it is pushed into that node. -/
def CopiedLate (ql : QuickList) (ns : Shape) : Prop :=
  ∃ p left e, ns = [(p, left ++ [e])] ∧ zipIsStr e.encoding ∧ e.bytes ≠ [] ∧ zipTryEncoding e.bytes = none ∧
    quicklistNodeAllowInsert (some (ql.node p)) ql.fill e.bytes.length = true

theorem copiedLate_concat : CopiedLate ql (as ++ [(p, left ++ [e])]) ↔
    as = [] ∧ zipIsStr e.encoding ∧ e.bytes ≠ [] ∧ zipTryEncoding e.bytes = none ∧
      quicklistNodeAllowInsert (some (ql.node p)) ql.fill e.bytes.length = true := by
  constructor
  · rintro ⟨p', left', e', heq, hlate⟩
    have hlast : as ++ [(p, left ++ [e])] = [] ++ [(p', left' ++ [e'])] := heq
    obtain ⟨has, hnode⟩ := List.append_inj' hlast rfl
    obtain ⟨rfl, hentries⟩ := Prod.mk.inj (List.cons.inj hnode).1
    obtain ⟨-, he⟩ := List.append_inj' hentries rfl
    rw [(List.cons.inj he).1]
    exact ⟨has, hlate⟩
  · rintro ⟨rfl, hlate⟩
    exact ⟨p, left, e, rfl, hlate⟩

/-- The list after the push: what is in front of the last element, and where that one lies. -/
def PushedFront (pf : Platform) (ql : QuickList) (p : Nat) (left : List Entry) (l : List Bytes) : Prop :=
  ∃ as' left' e', Stores pf ql (as' ++ [(p, left' ++ [e'])]) ∧ Settled pf ql ∧
    Sized (as' ++ [(p, left' ++ [e'])]) ∧ (ql.len = 1 ∨ left' = left) ∧ elements as' ++ contents left' = l

/-- The push at the head. -/
theorem gives_pushFront {copied first : Bytes} (h : Stores pf ql (as ++ [(p, left ++ [e])]))
    (hsettled : Settled pf ql) (hsized : Sized (as ++ [(p, left ++ [e])])) (hmany : as.length + 2 < 2 ^ 32)
    (hcopied : copied.length = e.bytes.length)
    (hnew : quicklistNodeAllowInsert ((ql.endOf .HEAD).map ql.node) ql.fill e.bytes.length = false →
      first = e.bytes)
    (hroom : quicklistNodeAllowInsert ((ql.endOf .HEAD).map ql.node) ql.fill e.bytes.length = true →
      first = arrived e.bytes copied) :
    Gives (quicklistPushCopying pf .HEAD e.bytes copied)
      (fun _ ql₁ => PushedFront pf ql₁ p left (first :: (elements as ++ contents left))) ql := by
  have hvalue : e.bytes.length < 2 ^ 31 - 13 :=
    hsized.short mem_self (List.mem_append_right _ List.mem_cons_self)
  cases hallow : quicklistNodeAllowInsert ((ql.endOf .HEAD).map ql.node) ql.fill e.bytes.length with
  | false =>
      rw [hnew hallow]
      refine gives_push_new h hallow (by omega) fun ql₁ new hbytes hlen _ _ hgood => ?_
      obtain ⟨hstores, hsettled₁⟩ := hgood (by rw [List.length_append]; exact hmany)
      refine ⟨(ql.fresh, [new]) :: as, left, e, hstores, hsettled₁ hsettled, ?_, .inr rfl, ?_⟩
      · intro n hn
        rcases List.mem_cons.mp hn with rfl | hin
        · dsimp only
          rw [size_cons, size_nil]
          omega
        · exact hsized n hin
      · rw [elements_cons, ← hbytes]
        rfl
  | true =>
      rw [hroom hallow]
      have hroomy := @roomy_le
      rcases as with _ | ⟨⟨q, fs⟩, as⟩
      · have hend : AtEnd [] [] Where.HEAD := rfl
        have hhead := h.toNodes.endOf hend
        have hfits := hsized _ mem_self
        dsimp only at hfits
        rw [hhead] at hallow
        refine gives_push_room h hend (hsettled.toKempt.endOf hhead) hallow (by omega) hcopied
          fun ql₁ new hbytes hlen hsmall hstores hsettled₁ => ?_
        -- the node is the only one: its last entry is looked for again
        have hone : ql₁.len = 1 := hstores.len
        have hcontents := @contents_addEntry (left ++ [e]) new .HEAD
        have hsize := @size_addEntry_le (left ++ [e]) new .HEAD
        have hlength := @length_addEntry (left ++ [e]) new .HEAD
        generalize addEntry (left ++ [e]) new .HEAD = es' at hstores hcontents hsize hlength
        rcases List.eq_nil_or_concat es' with rfl | ⟨left', e', rfl⟩
        · cases hlength
        · rw [List.concat_eq_append] at hstores hcontents hsize
          refine ⟨[], left', e', hstores, hsettled₁ hsettled, hsized.edited ?_, .inl hone, ?_⟩
          · have := @roomy_le (left ++ [e])
            omega
          · rw [contents_append, contents_append] at hcontents
            have hsplit : contents left' ++ [e'.bytes] = (new.bytes :: contents left) ++ [e.bytes] := hcontents
            rw [← hbytes]
            exact (List.append_inj' hsplit rfl).1
      · have hfront : Stores pf ql ([] ++ (q, fs) :: (as ++ [(p, left ++ [e])])) := h
        have hend : AtEnd [] (as ++ [(p, left ++ [e])]) Where.HEAD := rfl
        have hhead := hfront.toNodes.endOf hend
        have hfits := hsized _ List.mem_cons_self
        dsimp only at hfits
        rw [hhead] at hallow
        refine gives_push_room hfront hend (hsettled.toKempt.endOf hhead) hallow (by omega) hcopied
          fun ql₁ new hbytes hlen hsmall hstores hsettled₁ => ?_
        refine ⟨(q, addEntry fs new .HEAD) :: as, left, e, hstores, hsettled₁ hsettled, ?_, .inr rfl, ?_⟩
        · have hle := @size_addEntry_le fs new .HEAD
          have := @roomy_le fs
          have hfits' : Sized ([] ++ (q, fs) :: (as ++ [(p, left ++ [e])])) := hsized
          exact hfits'.edited (by omega)
        · rw [elements_cons, contents_addEntry, hbytes]
          rfl

theorem value_cases (e : Entry) : (zipIsStr e.encoding ∧ e.value = .str e.bytes) ∨
    (¬ zipIsStr e.encoding ∧ ∃ v, e.value = .int v ∧ e.bytes = ll2str v) := by
  unfold Entry.bytes Entry.value
  by_cases hstr : zipIsStr e.encoding
  · rw [if_pos hstr]
    exact .inl ⟨hstr, rfl⟩
  · rw [if_neg hstr]
    exact .inr ⟨hstr, _, rfl, rfl⟩

/-- What `quicklistRotate` puts in front. -/
theorem gives_quicklistRotate {first : Bytes} (h : Stores pf ql (as ++ [(p, left ++ [e])]))
    (hsettled : Settled pf ql) (hsized : Sized (as ++ [(p, left ++ [e])])) (hmany : as.length + 2 < 2 ^ 32)
    (htwo : 2 ≤ total (as ++ [(p, left ++ [e])])) (hsafe : ¬ CopiedLate ql (as ++ [(p, left ++ [e])]) → first = e.bytes)
    (hlate : CopiedLate ql (as ++ [(p, left ++ [e])]) → first = (List.range e.bytes.length).map late) :
    Gives (quicklistRotate pf late) (fun _ ql' =>
      IsDeque pf ql' (first :: (elements as ++ contents left))) ql := by
  have hend : AtEnd as [] .TAIL := rfl
  have htail : ql.tail = some p := h.toNodes.endOf hend
  have hp : p ∈ ql.nodes := h.toNodes.mem mem_self
  obtain ⟨zl, hzl, -, hrep⟩ := (h.holds _ mem_self).of_raw (hsettled.toKempt.endOf (h.toNodes.endOf hend))
  have hindex : ziplistIndex zl (-1) = some (some (10 + size left)) :=
    @ziplistIndex_end .TAIL left [] e zl hrep (fun hw => by cases hw) fun _ => rfl
  have hcount := h.count
  have hhead : as = [] → ql.endOf .HEAD = some p := fun has => h.toNodes.endOf has
  have hnew : quicklistNodeAllowInsert ((ql.endOf .HEAD).map ql.node) ql.fill e.bytes.length = false →
      first = e.bytes := by
    refine fun hallow => hsafe fun hl => ?_
    obtain ⟨has, -, -, -, hroom⟩ := copiedLate_concat.mp hl
    rw [hhead has, Option.map_some, hroom] at hallow
    cases hallow
  -- the push, and the deletion behind it
  have hrest := fun copied hlength hroom => yields_mono
    (@gives_pushFront pf ql p as left e copied first h hsettled hsized hmany hlength hnew hroom)
    fun _ ql₁ hql₁ => by
      obtain ⟨as', left', e', hstores, hsettled₁, hsized₁, hfound, helements⟩ := hql₁
      have hdrop := @gives_dropTail pf ql₁ p as' left' e' (some (10 + size left)) hstores hsettled₁ hsized₁
        (hfound.imp_right fun heq => by rw [heq])
      rw [helements] at hdrop
      exact hdrop
  unfold Gives quicklistRotate
  rw [yields_bind, yields_get, yields_ite, if_neg (by omega), htail]
  unfold deref
  rw [yields_bind, yields_orFail, yields_bind]
  refine gives_rawAt hp hzl ?_
  rw [hindex, yields_bind, yields_orFail, ziplistGet_spec hrep, yields_bind, yields_orFail, yields_bind,
    yields_orFail, ← htail]
  rcases value_cases e with ⟨hstr, hval⟩ | ⟨hint, v, hval, hbytes⟩
  · rw [hval]
    dsimp only
    rw [yields_bind]
    refine hrest _ ?_ fun hallow => ?_
    · split
      · rw [List.length_map, List.length_range]
      · rfl
    · by_cases has : as = []
      · have hends : ql.head = ql.tail := (hhead has).trans htail.symm
        rw [if_pos hends]
        rcases henc : zipTryEncoding e.bytes with _ | r
        · rw [arrived_str henc, List.take_of_length_le (by rw [List.length_map, List.length_range])]
          rcases hbytes : e.bytes with _ | ⟨b, bs⟩
          · rw [hsafe fun hl => (copiedLate_concat.mp hl).2.2.1 hbytes, hbytes]
            rfl
          · rw [← hbytes]
            rw [hhead has] at hallow
            exact hlate (copiedLate_concat.mpr ⟨has, hstr, hbytes ▸ List.cons_ne_nil b bs, henc, hallow⟩)
        · rw [arrived_int henc]
          refine hsafe fun hl => ?_
          rw [(copiedLate_concat.mp hl).2.2.2.1] at henc
          cases henc
      · obtain ⟨⟨q, fs⟩, as, rfl⟩ := List.exists_cons_of_ne_nil has
        have hends : ql.head ≠ ql.tail := by
          have hother := h.toNodes.other (List.mem_append_left _ List.mem_cons_self)
          have hfront : Stores pf ql ([] ++ (q, fs) :: (as ++ [(p, left ++ [e])])) := h
          have hhead' : ql.head = some q := @Nodes.endOf pf ql q [] _ fs .HEAD hfront.toNodes rfl
          rw [hhead', htail]
          exact fun heq => hother (Option.some.inj heq)
        rw [if_neg hends, arrived_self]
        exact hsafe fun hl => has (copiedLate_concat.mp hl).1
  · rw [hval]
    dsimp only
    have hvalue : valueBytes (.int v) = e.bytes := hbytes.symm
    rw [yields_bind, hvalue, ← hbytes]
    refine hrest _ rfl fun _ => ?_
    rw [arrived_self]
    exact hsafe fun hl => hint (copiedLate_concat.mp hl).2.1

/-- The last element is in front of the others, and as many are counted. -/
def Rotates (pf : Platform) (ns : Shape) (ql ql' : QuickList) : Prop :=
  ql'.count = ql.count ∧ ∃ ns', Stores pf ql' ns' ∧ elements ns' = rotated (elements ns)

/-- The last element of a list. -/
theorem exists_last (h : Stores pf ql ns) (hpos : 0 < total ns) :
    ∃ as p left e, ns = as ++ [(p, left ++ [e])] := by
  rcases List.eq_nil_or_concat ns with rfl | ⟨as, ⟨p, es⟩, rfl⟩
  · cases hpos
  · rw [List.concat_eq_append] at h ⊢
    rcases List.eq_nil_or_concat es with rfl | ⟨left, e, rfl⟩
    · exact absurd rfl (h.full _ mem_self)
    · exact ⟨as, p, left, e, by rw [List.concat_eq_append]⟩

theorem elements_last : elements (as ++ [(p, left ++ [e])]) = (elements as ++ contents left) ++ [e.bytes] := by
  rw [elements_middle, contents_append, elements_nil, List.append_nil, List.append_assoc]
  rfl

theorem rotated_last :
    rotated (elements (as ++ [(p, left ++ [e])])) = e.bytes :: (elements as ++ contents left) := by
  rw [elements_last, rotated_concat]

/-- What is found in the place of the string is another one. -/
theorem not_rotates (h : Stores pf ql (as ++ [(p, left ++ [e])])) (hsettled : Settled pf ql)
    (hsized : Sized (as ++ [(p, left ++ [e])])) (hmany : as.length + 2 < 2 ^ 32)
    (htwo : 2 ≤ total (as ++ [(p, left ++ [e])])) (hl : CopiedLate ql (as ++ [(p, left ++ [e])]))
    (hother : (List.range e.bytes.length).map late ≠ e.bytes) :
    ¬ Gives (quicklistRotate pf late) (fun _ ql' => Rotates pf (as ++ [(p, left ++ [e])]) ql ql') ql := by
  intro hrotates
  have hgives := @gives_quicklistRotate pf ql p as left e late _ h hsettled hsized hmany htwo
    (fun hno => absurd hl hno) fun _ => rfl
  obtain ⟨_, ql', ⟨-, ns', hstores', helements'⟩, ns'', hstores'', -, -, helements''⟩ :=
    Gives.exists (yields_and hrotates hgives)
  have hsame := hstores'.toNodes.elements_eq hstores''.toNodes
  rw [helements', helements'', rotated_last] at hsame
  exact hother (List.cons.inj hsame).1.symm

/-- The string of one byte. -/
def letterOf (b : UInt8) : Entry := strEntry false [b] (by rw [List.length_singleton]; decide)

/-- Two strings in one node. -/
def twoLetters : QuickList := single [letterOf 97, letterOf 98]

theorem twoLetters_stores (pf : Platform) :
    Stores pf twoLetters ([] ++ [(0, [letterOf 97] ++ [letterOf 98])]) :=
  single_stores (List.cons_ne_nil _ _) (by decide) ⟨fun _ => by decide, fun _ => by decide, trivial⟩ (by decide)

theorem twoLetters_sized : Sized ([] ++ [(0, [letterOf 97] ++ [letterOf 98])]) := by
  intro n hn
  obtain rfl := List.mem_singleton.mp hn
  decide

theorem twoLetters_late : CopiedLate twoLetters ([] ++ [(0, [letterOf 97] ++ [letterOf 98])]) :=
  copiedLate_concat.mpr ⟨rfl, by decide, by decide, by decide, by decide⟩

end Quicklist

end RedisCore
