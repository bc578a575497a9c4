/-
# `RedisCore.Quicklist.Deque` — pushing and popping at the ends

A push goes into the node at the end, where `_quicklistNodeAllowInsert` finds room, or into a new
node.  A pop deletes the first or the last entry, and its node with the last one in it.  Both are
followed on the entries; if both ends are open and no node waits to be closed, that stays so, and
a run of pushes and pops is one on a deque of strings.
-/
import RedisCore.Quicklist.Edits
import RedisCore.Ziplist.Pushes

namespace RedisCore

namespace Quicklist

open CInt Marked Ziplist

variable {pf : Platform} {ql ql' : QuickList} {p : Nat} {ns as bs ms : Shape} {es es' : List Entry}
  {node : QuicklistNode} {whr : Where}

/-! ## The ends -/

theorem elements_addTo {n : Nat × List Entry} {new : Entry} (h : n.2 = [new]) :
    elements (addTo ns n whr) = addTo (elements ns) new.bytes whr := by
  cases whr with
  | HEAD =>
      show elements (n :: ns) = _
      rw [elements_cons, h]
      rfl
  | TAIL =>
      show elements (ns ++ [n]) = _
      rw [elements_append, elements_cons, h]
      rfl

theorem length_addTo {α : Type} {l : List α} {x : α} : (addTo l x whr).length = l.length + 1 := by
  cases whr with
  | HEAD => rfl
  | TAIL => exact List.length_append

/-- The node at an end of a list. -/
def AtEnd (as bs : Shape) : Where → Prop
  | .HEAD => as = []
  | .TAIL => bs = []

theorem addTo_middle (ns : Shape) (n : Nat × List Entry) (whr : Where) :
    ∃ as bs, ns = as ++ bs ∧ addTo ns n whr = as ++ n :: bs ∧ AtEnd as bs whr := by
  cases whr with
  | HEAD => exact ⟨[], ns, rfl, rfl, rfl⟩
  | TAIL => exact ⟨ns, [], (List.append_nil ns).symm, rfl, rfl⟩

/-- The node that a push or a pop uses. -/
theorem Nodes.endOf (h : Nodes pf ql (as ++ (p, es) :: bs)) (hend : AtEnd as bs whr) :
    ql.endOf whr = some p := by
  have hnodes := h.nodes
  rw [List.map_append, List.map_cons] at hnodes
  cases whr with
  | HEAD =>
      unfold AtEnd at hend
      rw [hend] at hnodes
      show ql.nodes.head? = _
      rw [hnodes]
      rfl
  | TAIL =>
      unfold AtEnd at hend
      rw [hend] at hnodes
      show ql.nodes.getLast? = _
      rw [hnodes]
      exact List.getLast?_concat

theorem Nodes.endOf_nil (h : Nodes pf ql []) : ql.endOf whr = none := by
  have hnodes := h.nodes
  cases whr with
  | HEAD =>
      show ql.nodes.head? = _
      rw [hnodes]
      rfl
  | TAIL =>
      show ql.nodes.getLast? = _
      rw [hnodes]
      rfl

/-- A list is empty or has a node at the end. -/
theorem exists_atEnd (ns : Shape) (whr : Where) :
    ns = [] ∨ ∃ as p es bs, ns = as ++ (p, es) :: bs ∧ AtEnd as bs whr := by
  cases whr with
  | HEAD =>
      rcases ns with _ | ⟨⟨p, es⟩, bs⟩
      · exact .inl rfl
      · exact .inr ⟨[], p, es, bs, rfl, rfl⟩
  | TAIL =>
      rcases List.eq_nil_or_concat ns with rfl | ⟨as, ⟨p, es⟩, rfl⟩
      · exact .inl rfl
      · exact .inr ⟨as, p, es, [], List.concat_eq_append, rfl⟩

theorem elements_atEnd {new : Entry} (hend : AtEnd as bs whr) :
    elements (as ++ (p, addEntry es new whr) :: bs) =
      addTo (elements (as ++ (p, es) :: bs)) new.bytes whr := by
  rw [elements_middle, elements_middle, contents_addEntry]
  cases whr with
  | HEAD =>
      unfold AtEnd at hend
      rw [hend]
      rfl
  | TAIL =>
      unfold AtEnd at hend
      rw [hend]
      unfold addTo
      simp

/-! ## Room in a node -/

/-- Where `_quicklistNodeAllowInsert` finds room, the node is small. -/
theorem allowInsert_small {fill : Int} {sz : Nat}
    (h : quicklistNodeAllowInsert (some node) fill sz = true) (hno : node.sz + sz + 10 < 2 ^ 32) :
    node.sz + sz + 2 ≤ 65536 := by
  unfold quicklistNodeAllowInsert at h
  dsimp only at h
  generalize hover : (if sz < 254 then 1 else 5) + (if sz < 64 then 1 else if sz < 16384 then 2 else 5)
    = overhead at h
  have hlow : 2 ≤ overhead ∧ overhead ≤ 10 := by
    rw [← hover]
    split <;> split <;> (try split) <;> omega
  rw [toUInt_eq (by omega)] at h
  have hlarge : node.sz + sz + overhead ≤ 65536 := by
    by_contra hbig
    rw [if_neg, if_pos (by unfold SIZE_SAFETY_LIMIT; omega)] at h
    · cases h
    · intro hmeets
      unfold meetsOptimizationRequirement at hmeets
      split at hmeets
      · cases hmeets
      · rcases hlevel : optimizationLevel[(-fill - 1).toNat]? with _ | level
        · rw [hlevel] at hmeets
          cases hmeets
        · rw [hlevel] at hmeets
          have hmem := List.mem_of_getElem? hlevel
          have hle := of_decide_eq_true hmeets
          unfold optimizationLevel at hmem
          simp only [List.mem_cons, List.not_mem_nil, or_false] at hmem
          omega
  omega

/-! ## Pushing -/

section push

variable {Q : Bool → QuickList → Prop} {value copied : Bytes}

/-- What a push ends with: the counters. -/
theorem gives_countPush {c : Nat} {ret : Nat → Bool} (hp : p ∈ ql.nodes) (hend : ql.endOf whr = some p)
    (hcount : (ql.node p).count + 1 = c) (hshort : c < 2 ^ 16)
    (hQ : Q (ret p) { ql.setNode p { ql.node p with count := c } with count := toULong (ql.count + 1) }) :
    Gives (do
      Quicklist.addCount 1
      let p ← deref ((← get).endOf whr)
      setCount p ((← nodeAt p).count + 1 : Nat)
      return ret p) Q ql := by
  unfold Gives Quicklist.addCount deref
  rw [yields_bind, yields_modify, yields_bind, yields_get, yields_bind]
  have hend' : QuickList.endOf { ql with count := toULong (ql.count + 1) } whr = some p := by
    cases whr with
    | HEAD => exact hend
    | TAIL => exact hend
  rw [hend', yields_orFail, yields_bind]
  refine gives_nodeAt hp ?_
  rw [yields_bind]
  refine gives_setCount hp ?_
  rw [yields_pure]
  have hcast : ((((ql.node p).count + 1 : Nat) : Int) % 2 ^ 16).toNat = c := by omega
  dsimp only
  rw [hcast]
  exact hQ

/-- A push into a node that has room. -/
theorem gives_push_room (h : Stores pf ql (as ++ (p, es) :: bs)) (hend : AtEnd as bs whr)
    (hraw : ql.Raw p)
    (hallow : quicklistNodeAllowInsert (some (ql.node p)) ql.fill value.length = true)
    (hno : 11 + size es + value.length + 10 < 2 ^ 32) (hcopied : copied.length = value.length)
    (hQ : ∀ ql' new, new.bytes = arrived value copied → new.rawLen ≤ 10 + max 8 value.length →
      11 + size es + value.length + 2 ≤ 65536 → Stores pf ql' (as ++ (p, addEntry es new whr) :: bs) →
      (Settled pf ql → Settled pf ql') → Q false ql') :
    Gives (quicklistPushCopying pf whr value copied) Q ql := by
  have hp : p ∈ ql.nodes := h.toNodes.mem mem_self
  have hatEnd := h.toNodes.endOf hend
  have hnode := h.holds _ mem_self
  have hcount : (ql.node p).count = es.length := h.counted _ mem_self
  dsimp only at hnode
  have hsmall := allowInsert_small hallow (by rw [hnode.sz]; omega)
  rw [hnode.sz] at hsmall
  have hentries := @length_le_size es
  have hroomy := @roomy_le es
  obtain ⟨zl, hzl, -, hrep⟩ := hnode.of_raw hraw
  obtain ⟨zl', new, hpush, hrep', hbytes, hlen, -⟩ := @ziplistPushCopying_room es value copied zl pf.mem whr
    hrep (by omega) (Nat.le_of_eq hcopied.symm) (by omega)
  have hlen' := @length_addEntry es new whr
  unfold Gives quicklistPushCopying
  rw [yields_bind, yields_get]
  dsimp only
  rw [hatEnd, Option.map_some, hallow, if_pos rfl, yields_bind]
  unfold pushInto
  rw [yields_bind]
  unfold deref
  rw [yields_orFail, yields_bind]
  refine gives_rawAt hp hzl ?_
  rw [cut_eq (by omega), cut_eq (by omega), hpush, yields_bind, yields_orFail, yields_bind]
  refine gives_setZl hp ?_
  refine gives_updateSz hp (by rw [setNode_same]) hrep' ?_
  rw [setNode_setNode, setNode_same]
  refine @gives_countPush _ p whr _ (es.length + 1) (fun q => decide (some p ≠ some q)) hp ?_ ?_ (by omega) ?_
  · cases whr with
    | HEAD => exact hatEnd
    | TAIL => exact hatEnd
  · rw [setNode_same, hcount]
  · rw [setNode_same, setNode_setNode, decide_eq_false (not_not_intro rfl)]
    have htotal := h.count
    rw [total_middle] at htotal
    have hmany := total_lt h.short h.linkable
    rw [total_middle] at hmany
    have hedited : Loose pf { ql.setNode p ⟨.raw zl', 11 + size (addEntry es new whr), es.length + 1,
        (ql.node p).recompress⟩ with count := toULong (ql.count + 1) }
        (as ++ (p, addEntry es new whr) :: bs) := by
      refine h.loose.edited (nodeHolds_raw hrep') hlen'.symm ?_ (by omega)
      rw [total_middle, hlen', htotal]
      unfold toULong
      omega
    refine hQ _ new hbytes hlen hsmall (hedited.stores fun n hn => ?_) fun hs => ?_
    · rcases mem_middle hn with rfl | hin
      · intro hnil
        dsimp only at hnil
        rw [hnil] at hlen'
        cases hlen'
      · exact h.full n (mem_around hin)
    · have hset : Settled pf (ql.setNode p ⟨.raw zl', 11 + size (addEntry es new whr), es.length + 1,
          (ql.node p).recompress⟩) := hs.setNode (fun _ => trivial) (fun _ => sound_of_raw trivial) id
      exact hset.congr rfl rfl rfl rfl

/-- A new node at an end. -/
theorem gives_insertAtEnd {Q : Nat → QuickList → Prop} (whr : Where) (h : Nodes pf ql ns)
    (hlen : ql.len = ns.length) (hnew : NodeHolds pf node es')
    (hQ : ∀ ql', Linked pf ql ql' node (addTo ns (ql.fresh, es') whr) → Q ql.fresh ql') :
    Gives (quicklistInsertNode pf (ql.endOf whr) node (decide (whr = .TAIL))) Q ql := by
  rcases exists_atEnd ns whr with rfl | ⟨as, p, es, bs, rfl, hend⟩
  · rw [h.endOf_nil]
    refine gives_insertFirstNode h hlen hnew fun ql' hlinked => hQ ql' ?_
    cases whr with
    | HEAD => exact hlinked
    | TAIL => exact hlinked
  · rw [h.endOf hend]
    have hnodes := h.nodes
    have hmany := congrArg List.length hnodes
    rw [List.length_map] at hmany
    rw [List.length_append, List.length_cons] at hlen hmany
    refine gives_insertNode h (by omega) (by omega) hnew ?_ hQ
    cases whr with
    | HEAD =>
        unfold AtEnd at hend
        rw [hend]
        rfl
    | TAIL =>
        unfold AtEnd at hend
        rw [hend]
        show (as ++ [(p, es)]) ++ [(ql.fresh, es')] = _
        simp

/-- The list with a new node and the counters that belong to it. -/
theorem Linked.stores {node' : QuicklistNode} {count : Nat} (hl : Linked pf ql ql' node ms)
    (hms : ms = as ++ (ql.fresh, es') :: bs) (h : Stores pf ql (as ++ bs)) (hn : NodeHolds pf node' es')
    (hcount : node'.count = es'.length) (htotal : count = total ms) (hfull : es' ≠ [])
    (hshort : es'.length < 2 ^ 16) (hmany : ms.length < 2 ^ 32) :
    Stores pf { ql'.setNode ql.fresh node' with count := count } ms := by
  subst hms
  have hset := hl.nodes.setNode hn
  have hlen := h.len
  have hshort' : ∀ n ∈ as ++ (ql.fresh, es') :: bs, n.2.length < 2 ^ 16 := by
    intro n hmem
    rcases mem_middle hmem with rfl | hin
    · exact hshort
    · exact h.short n hin
  refine ⟨⟨hset.nodes, hset.nodup, hset.old, hset.holds⟩, fun n hmem => ?_, htotal, ?_, fun n hmem => ?_,
    hshort', Nat.lt_trans (total_lt hshort' hmany) (by decide), hmany⟩
  · show ((ql'.setNode ql.fresh node').node n.1).count = _
    rcases mem_middle hmem with rfl | hin
    · rw [setNode_same]
      exact hcount
    · have hother := hl.nodes.other hin
      rw [setNode_other hother, hl.counts n.1 hother]
      exact h.counted n hin
  · show ql'.len = _
    rw [List.length_append, List.length_cons] at hmany ⊢
    rw [List.length_append] at hlen
    rw [hl.len, toUInt_eq (by omega)]
    omega
  · rcases mem_middle hmem with rfl | hin
    · exact hfull
    · exact h.full n hin

/-- A push into a new node. -/
theorem gives_push_new (h : Stores pf ql ns)
    (hallow : quicklistNodeAllowInsert ((ql.endOf whr).map ql.node) ql.fill value.length = false)
    (hvalue : value.length + 29 < 2 ^ 32)
    (hQ : ∀ ql' new, new.bytes = value → new.rawLen ≤ 6 + max 8 value.length →
      ql'.nodes.length = ns.length + 1 → ql'.fill = ql.fill → (ns.length + 1 < 2 ^ 32 →
        Stores pf ql' (addTo ns (ql.fresh, [new]) whr) ∧ (Settled pf ql → Settled pf ql')) →
      Q true ql') :
    Gives (quicklistPushCopying pf whr value copied) Q ql := by
  obtain ⟨zl, new, hpush, hrep, hbytes, -, hlen⟩ := @ziplistPushCopying_room [] value value ziplistNew pf.mem
    whr ziplistNew_represents (by omega) (Nat.le_refl _) (by show 21 + 0 + _ < _; omega)
  rw [arrived_self] at hbytes
  have hentries : addEntry [] new whr = [new] := by
    cases whr with
    | HEAD => rfl
    | TAIL => rfl
  rw [hentries] at hrep
  unfold Gives quicklistPushCopying
  rw [yields_bind, yields_get]
  dsimp only
  rw [hallow, if_neg Bool.false_ne_true, yields_bind, yields_bind]
  unfold nodeWith
  rw [cut_eq (by omega), yields_bind]
  rw [show ziplistPush pf.mem ziplistNew value whr = some zl from hpush, yields_orFail, yields_bind,
    ziplistBlobLen_spec hrep, yields_orFail, yields_pure, yields_bind]
  refine gives_insertAtEnd whr h.toNodes h.len (nodeHolds_raw hrep) fun ql₁ hlinked => ?_
  rw [yields_pure]
  obtain ⟨as, bs, hns, hms, hend⟩ := addTo_middle ns (ql.fresh, [new]) whr
  have hmiddle := hlinked.nodes
  rw [hms] at hmiddle
  have hout : ql.endOf whr ≠ some ql.fresh := by
    intro heq
    have hin : ql.fresh ∈ ql.nodes := by
      cases whr with
      | HEAD => exact List.mem_of_head? heq
      | TAIL => exact List.mem_of_getLast? heq
    exact Nat.lt_irrefl _ (h.old _ hin)
  have hnodes := congrArg List.length hlinked.nodes.nodes
  rw [List.length_map, length_addTo] at hnodes
  refine @gives_countPush _ ql.fresh whr _ 1 (fun q => decide (ql.endOf whr ≠ some q))
    (hmiddle.mem mem_self) (hmiddle.endOf hend) (congrArg (· + 1) hlinked.newCount) (by decide) ?_
  rw [decide_eq_true hout]
  refine hQ _ new hbytes (hlen rfl) hnodes hlinked.fill fun hmany => ⟨?_, fun hs => ?_⟩
  · have hold := hmiddle.holds _ mem_self
    have hcount := h.count
    have hless := total_lt h.short h.linkable
    refine hlinked.stores hms (hns ▸ h) hold rfl ?_ (List.cons_ne_nil _ _)
      (by rw [List.length_singleton]; decide) (by rw [length_addTo]; exact hmany)
    rw [hms, total_middle, hlinked.count, hcount, hns, total_append, List.length_singleton]
    rw [hns, total_append] at hless
    unfold toULong
    omega
  · have hlen₀ : ql.len ≤ ql.nodes.length := by
      rw [h.len, h.nodes, List.length_map]
    have hset : Settled pf (ql₁.setNode ql.fresh { ql₁.node ql.fresh with count := 1 }) :=
      (hlinked.settled hs trivial rfl hlen₀).setNode id id id
    exact hset.congr rfl rfl rfl rfl

end push

/-! ## Deleting an entry -/

/-- `quicklistDelIndex` takes one entry out, and the node with the last one. -/
theorem gives_quicklistDelIndex {Q : Bool → QuickList → Prop} {k : Nat}
    (h : Stores pf ql (as ++ (p, es) :: bs)) (hraw : ql.Raw p) (hk : k < es.length)
    (hsmall : 11 + size (deleteEntries es k 1) < 2 ^ 32)
    (hgone : ∀ ql', es.length = 1 → Stores pf ql' (as ++ bs) → (Settled pf ql → Settled pf ql') →
      Q true ql')
    (hstays : ∀ ql', es.length ≠ 1 → Stores pf ql' (as ++ (p, deleteEntries es k 1) :: bs) →
      ql'.Raw p → (∀ q, ql.Raw q → ql'.Raw q) → (Settled pf ql → Settled pf ql') → Q false ql') :
    Gives (quicklistDelIndex pf p (10 + size (es.take k))) Q ql := by
  have hp : p ∈ ql.nodes := h.toNodes.mem mem_self
  have hcount : (ql.node p).count = es.length := h.counted _ mem_self
  have hshort : es.length < 2 ^ 16 := h.short _ mem_self
  have htotal := h.count
  have hmany := total_lt h.short h.linkable
  have hlength : (deleteEntries es k 1).length = es.length - 1 := by
    rw [length_deleteEntries]
    omega
  rw [total_middle] at htotal hmany
  obtain ⟨zl, hzl, -, hrep⟩ := (h.holds _ mem_self).of_raw hraw
  obtain ⟨zl', hdel, hrep'⟩ := deleteEntries_spec pf.mem hrep hk hsmall
  have hcut : ((((ql.node p).count : Int) - 1) % 2 ^ 16).toNat = es.length - 1 := by omega
  unfold Gives quicklistDelIndex
  rw [yields_bind]
  refine gives_rawAt hp hzl ?_
  rw [show ziplistDelete pf.mem zl (10 + size (es.take k)) = some zl' from hdel, yields_bind,
    yields_orFail, yields_bind]
  refine gives_setZl hp ?_
  rw [yields_bind]
  refine gives_nodeAt hp ?_
  rw [setNode_same, yields_bind]
  refine gives_setCount hp ?_
  rw [setNode_setNode, setNode_same]
  dsimp only
  rw [hcut, yields_bind]
  refine gives_nodeAt hp ?_
  rw [setNode_same]
  dsimp only
  have hset : ∀ sz, Settled pf ql →
      Settled pf (ql.setNode p ⟨.raw zl', sz, es.length - 1, (ql.node p).recompress⟩) :=
    fun sz hs => hs.setNode (fun _ => trivial) (fun _ => sound_of_raw trivial) id
  rw [yields_bind]
  by_cases hone : es.length = 1
  · -- the last entry: the node is unlinked with a ziplist of no entry
    rw [decide_eq_true (by omega), if_pos rfl]
    have hn := h.toNodes.erase ⟨.raw zl', (ql.node p).sz, es.length - 1, (ql.node p).recompress⟩
    have hc := h.counted.erase h.toNodes ⟨.raw zl', (ql.node p).sz, es.length - 1, (ql.node p).recompress⟩
      (ql.nodes.erase p)
    have hlen := h.len
    have hlinkable := h.linkable
    rw [List.length_append, List.length_cons] at hlen hlinkable
    refine gives_quicklistDelNode hp hn hc ?_ fun ql₁ hunlinked => ?_
    · show ql.len ≤ _
      rw [List.length_append]
      omega
    · unfold Quicklist.addCount
      rw [yields_bind, yields_modify, yields_pure]
      have hcount₁ := hunlinked.count
      have hlen₁ := hunlinked.len
      rw [setNode_same] at hcount₁
      have hstores : Stores pf { ql₁ with count := toULong (ql₁.count + -1) } (as ++ bs) := by
        refine ⟨⟨hunlinked.nodes.nodes, hunlinked.nodes.nodup, hunlinked.nodes.old, hunlinked.nodes.holds⟩,
          hunlinked.counted, ?_, ?_, fun n hn => h.full n (mem_around hn),
          fun n hn => h.short n (mem_around hn), ?_, ?_⟩
        · show toULong (ql₁.count + -1) = _
          rw [hcount₁, total_append]
          show toULong (toULong ((ql.count : Int) - (es.length - 1 : Nat)) + -1) = _
          rw [htotal]
          unfold toULong
          omega
        · show ql₁.len = _
          rw [hlen₁, List.length_append]
          show toUInt ((ql.len : Int) - 1) = _
          rw [hlen]
          unfold toUInt
          omega
        · rw [total_append]
          omega
        · rw [List.length_append]
          omega
      refine hgone _ hone hstores fun hs => ?_
      have hlen₀ : ql.len = ql.nodes.length := by
        rw [h.len, h.nodes, List.length_map]
      have hsmall₀ : ql.nodes.length < 2 ^ 32 := by
        rw [h.nodes, List.length_map]
        exact h.linkable
      exact (hunlinked.settled (hset _ hs) hlen₀ hsmall₀).congr rfl rfl rfl rfl
  · rw [decide_eq_false (by omega), if_neg Bool.false_ne_true]
    refine gives_updateSz hp (by rw [setNode_same]) hrep' ?_
    unfold Quicklist.addCount
    rw [setNode_setNode, setNode_same, yields_bind, yields_modify, yields_pure]
    have hedited : Loose pf { ql.setNode p ⟨.raw zl', 11 + size (deleteEntries es k 1), es.length - 1,
        (ql.node p).recompress⟩ with count := toULong (ql.count + -1) }
        (as ++ (p, deleteEntries es k 1) :: bs) := by
      refine h.loose.edited (nodeHolds_raw hrep') hlength.symm ?_ (by omega)
      rw [total_middle, hlength, htotal]
      unfold toULong
      omega
    have hraw' : ∀ q, q = p ∨ ql.Raw q → (ql.setNode p ⟨.raw zl', 11 + size (deleteEntries es k 1),
        es.length - 1, (ql.node p).recompress⟩).Raw q := by
      intro q hq
      unfold QuickList.Raw
      by_cases hqp : q = p
      · rw [hqp, setNode_same]
        trivial
      · rw [setNode_other hqp]
        exact hq.resolve_left hqp
    refine hstays _ hone (hedited.stores fun n hn => ?_) (hraw' p (.inl rfl))
      (fun q hq => hraw' q (.inr hq)) fun hs => (hset _ hs).congr rfl rfl rfl rfl
    rcases mem_middle hn with rfl | hin
    · intro hnil
      dsimp only at hnil
      rw [hnil] at hlength
      rw [List.length_nil] at hlength
      omega
    · exact h.full n (mem_around hin)

/-! ## Lists as deques -/

/-- The element at an end. -/
def elementAt {α : Type} (l : List α) : Where → Option α
  | .HEAD => l.head?
  | .TAIL => l.getLast?

/-- A list without the element at an end. -/
def removeFrom {α : Type} (l : List α) : Where → List α
  | .HEAD => l.tail
  | .TAIL => l.dropLast

/-- No ziplist has more than 2^31 + 3 bytes. -/
def Sized (ns : Shape) : Prop := ∀ n ∈ ns, 11 + size n.2 ≤ 2 ^ 31 + 3

/-- The list holds these strings, and it can be used at its ends. -/
def IsDeque (pf : Platform) (ql : QuickList) (l : List Bytes) : Prop :=
  ∃ ns, Stores pf ql ns ∧ Settled pf ql ∧ Sized ns ∧ elements ns = l

/-- `quicklistPush` adds an element at an end. -/
theorem gives_quicklistPush {l : List Bytes} {value : Bytes} (h : IsDeque pf ql l)
    (hvalue : value.length < 2 ^ 31 - 13) :
    Gives (quicklistPush pf value whr) (fun _ ql' => ql'.nodes.length ≤ ql.nodes.length + 1 ∧
      (ql'.nodes.length < 2 ^ 32 → IsDeque pf ql' (addTo l value whr))) ql := by
  obtain ⟨ns, hstores, hsettled, hsized, rfl⟩ := h
  have hpush : quicklistPush pf value whr = quicklistPushCopying pf whr value value := by
    cases whr with
    | HEAD => rfl
    | TAIL => rfl
  have hnodes : ql.nodes.length = ns.length := by
    rw [hstores.nodes, List.length_map]
  rw [hpush]
  cases hallow : quicklistNodeAllowInsert ((ql.endOf whr).map ql.node) ql.fill value.length with
  | false =>
      refine gives_push_new hstores hallow (by omega) fun ql' new hbytes hlen hmany _ hgood => ⟨?_, fun hfew => ?_⟩
      · omega
      · obtain ⟨hstores', hsettled'⟩ := hgood (by omega)
        refine ⟨_, hstores', hsettled' hsettled, ?_, ?_⟩
        · obtain ⟨as, bs, hns, hms, -⟩ := addTo_middle ns (ql.fresh, [new]) whr
          intro n hn
          rw [hms] at hn
          rcases mem_middle hn with rfl | hin
          · dsimp only
            rw [size_cons, size_nil]
            omega
          · exact hsized n (hns ▸ hin)
        · rw [← hbytes]
          exact elements_addTo rfl
  | true =>
      rcases exists_atEnd ns whr with rfl | ⟨as, p, es, bs, rfl, hend⟩
      · rw [hstores.toNodes.endOf_nil] at hallow
        cases hallow
      · rw [hstores.toNodes.endOf hend] at hallow
        have hfits := hsized _ mem_self
        dsimp only at hfits
        refine gives_push_room hstores hend (hsettled.toKempt.endOf (hstores.toNodes.endOf hend)) hallow
          (by omega) rfl fun ql' new hbytes hlen hsmall hstores' hsettled' => ⟨?_, fun _ => ?_⟩
        · rw [hstores'.nodes, List.length_map, hnodes]
          simp
        · refine ⟨_, hstores', hsettled' hsettled, fun n hn => ?_, ?_⟩
          · rcases mem_middle hn with rfl | hin
            · have hle := @size_addEntry_le es new whr
              have hroomy := @roomy_le es
              dsimp only
              omega
            · exact hsized n (mem_around hin)
          · rw [elements_atEnd hend, hbytes, arrived_self]

/-- The entry that a pop takes. -/
theorem exists_entryAt (h : es ≠ []) (whr : Where) :
    ∃ left e right, es = left ++ e :: right ∧ (whr = .HEAD → left = []) ∧ (whr = .TAIL → right = []) := by
  cases whr with
  | HEAD =>
      obtain ⟨e, right, rfl⟩ := List.exists_cons_of_ne_nil h
      exact ⟨[], e, right, rfl, fun _ => rfl, fun hw => by cases hw⟩
  | TAIL =>
      obtain ⟨left, e, rfl⟩ := (List.eq_nil_or_concat es).resolve_left h
      exact ⟨left, e, [], List.concat_eq_append, fun hw => (by cases hw), fun _ => rfl⟩

/-- The element of that entry, and the others. -/
theorem elements_at {left right : List Entry} {e : Entry} (hend : AtEnd as bs whr)
    (hleft : whr = .HEAD → left = []) (hright : whr = .TAIL → right = []) :
    elementAt (elements (as ++ (p, left ++ e :: right) :: bs)) whr = some e.bytes ∧
      removeFrom (elements (as ++ (p, left ++ e :: right) :: bs)) whr =
        elements as ++ (contents left ++ contents right ++ elements bs) := by
  rw [elements_middle, contents_append, contents_cons]
  cases whr with
  | HEAD =>
      unfold AtEnd at hend
      rw [hend, hleft rfl]
      exact ⟨rfl, rfl⟩
  | TAIL =>
      unfold AtEnd at hend
      rw [hend, hright rfl]
      unfold elementAt removeFrom
      dsimp only
      rw [elements_nil, contents_nil, List.append_nil, ← List.append_assoc, List.append_nil,
        List.append_nil]
      exact ⟨List.getLast?_concat, List.dropLast_concat⟩

theorem contents_deleteOne {left right : List Entry} {e : Entry} :
    contents (deleteEntries (left ++ e :: right) left.length 1) = contents left ++ contents right := by
  rw [contents_deleteEntries, contents_append, contents_cons, ← @length_contents left, List.take_left,
    List.drop_length_add_append]
  rfl

/-- Without the first or the last entry a ziplist takes no more. -/
theorem size_deleteOne {left right : List Entry} {e : Entry} (h : Fits 0 (left ++ e :: right))
    (hleft : whr = .HEAD → left = []) (hright : whr = .TAIL → right = []) :
    size (deleteEntries (left ++ e :: right) left.length 1) ≤ size (left ++ e :: right) := by
  cases whr with
  | HEAD =>
      rw [hleft rfl] at h ⊢
      exact size_deleteEntries_first h 1
  | TAIL =>
      rw [hright rfl]
      exact size_deleteEntries_last (by rw [List.length_append, List.length_singleton])

/-- The index that a pop gives to `ziplistIndex`. -/
theorem ziplistIndex_end {left right : List Entry} {e : Entry} {zl : Bytes}
    (hrep : Ziplist.Represents zl (left ++ e :: right)) (hleft : whr = .HEAD → left = [])
    (hright : whr = .TAIL → right = []) :
    ziplistIndex zl (if whr = .HEAD then 0 else -1) = some (some (10 + size left)) := by
  have hlen : (left ++ e :: right).length = left.length + right.length + 1 := by
    rw [List.length_append, List.length_cons, Nat.add_assoc]
  have htake : (left ++ e :: right).take left.length = left := List.take_left
  have hposition : position (left ++ e :: right).length (if whr = .HEAD then 0 else -1) =
      some left.length := by
    unfold position
    cases whr with
    | HEAD =>
        rw [if_pos rfl, if_pos (Int.le_refl 0), if_pos (by omega), hleft rfl]
        rfl
    | TAIL =>
        have hnil := congrArg List.length (hright rfl)
        rw [List.length_nil] at hnil
        rw [show (if Where.TAIL = Where.HEAD then (0 : Int) else -1) = -1 from rfl, if_neg (by decide),
          if_pos (by omega)]
        congr 1
        omega
  rw [ziplistIndex_spec hrep (by split <;> decide) (by split <;> decide), hposition, Option.map_some,
    htake]

/-- The entry at an end is deleted. -/
theorem gives_deleteEnd {left right : List Entry} {e : Entry}
    (hstores : Stores pf ql (as ++ (p, left ++ e :: right) :: bs)) (hsettled : Settled pf ql)
    (hsized : Sized (as ++ (p, left ++ e :: right) :: bs)) (hend : AtEnd as bs whr)
    (hleft : whr = .HEAD → left = []) (hright : whr = .TAIL → right = []) :
    Gives (quicklistDelIndex pf p (10 + size left)) (fun _ ql' => ql'.nodes.length ≤ ql.nodes.length ∧
      IsDeque pf ql' (removeFrom (elements (as ++ (p, left ++ e :: right) :: bs)) whr)) ql := by
  have hnodes : ql.nodes.length = as.length + (bs.length + 1) := by
    rw [hstores.nodes, List.length_map, List.length_append, List.length_cons]
  have hlen : (left ++ e :: right).length = left.length + right.length + 1 := by
    rw [List.length_append, List.length_cons, Nat.add_assoc]
  have hraw := hsettled.toKempt.endOf (hstores.toNodes.endOf hend)
  obtain ⟨zl, hzl, -, hrep⟩ := (hstores.holds _ mem_self).of_raw hraw
  have htake : (left ++ e :: right).take left.length = left := List.take_left
  have hsize := size_deleteOne hrep.fits hleft hright
  have hsmall : 11 + size (left ++ e :: right) < 2 ^ 32 := hrep.small
  rw [(@elements_at p as bs whr left right e hend hleft hright).2]
  have hdelete := @gives_quicklistDelIndex pf ql p as bs (left ++ e :: right)
    (fun _ ql' => ql'.nodes.length ≤ ql.nodes.length ∧
      IsDeque pf ql' (elements as ++ (contents left ++ contents right ++ elements bs))) left.length hstores
    hraw (by omega) (by omega) (fun ql' hone hstores' hsettled' => ⟨?_, ?_⟩)
    fun ql' hmore hstores' _ _ hsettled' => ⟨?_, ?_⟩
  · rw [htake] at hdelete
    exact hdelete
  · rw [hstores'.nodes, List.length_map, hnodes, List.length_append]
    omega
  · refine ⟨as ++ bs, hstores', hsettled' hsettled, fun n hn => hsized n (mem_around hn), ?_⟩
    rw [List.length_eq_zero_iff.mp (by omega : left.length = 0),
      List.length_eq_zero_iff.mp (by omega : right.length = 0), elements_append]
    rfl
  · rw [hstores'.nodes, List.length_map, hnodes, List.length_append, List.length_cons]
  · refine ⟨_, hstores', hsettled' hsettled, fun n hn => ?_, ?_⟩
    · rcases mem_middle hn with rfl | hin
      · have hle := hsized _ (@mem_self as bs (p, left ++ e :: right))
        dsimp only at hle ⊢
        omega
      · exact hsized n (mem_around hin)
    · rw [elements_middle, contents_deleteOne, List.append_assoc]

/-- `quicklistPop` takes the element at an end, if there is one. -/
theorem gives_quicklistPop {l : List Bytes} (h : IsDeque pf ql l) :
    Gives (quicklistPop pf whr) (fun r ql' => r.map valueBytes = elementAt l whr ∧
      ql'.nodes.length ≤ ql.nodes.length ∧ IsDeque pf ql' (removeFrom l whr)) ql := by
  obtain ⟨ns, hstores, hsettled, hsized, rfl⟩ := h
  unfold Gives quicklistPop
  rw [yields_bind, yields_get, yields_ite]
  rcases exists_atEnd ns whr with rfl | ⟨as, p, es, bs, rfl, hend⟩
  · have hcount : ql.count = 0 := hstores.count
    have hnone : elementAt (elements []) whr = none ∧ removeFrom (elements []) whr = [] := by
      cases whr with
      | HEAD => exact ⟨rfl, rfl⟩
      | TAIL => exact ⟨rfl, rfl⟩
    rw [if_pos hcount, yields_pure, hnone.1, hnone.2]
    exact ⟨rfl, Nat.le_refl _, [], hstores, hsettled, hsized, rfl⟩
  · have hfull : es ≠ [] := hstores.full _ mem_self
    have hcount := hstores.count
    have hpos := List.length_pos_iff.mpr hfull
    rw [total_middle] at hcount
    rw [if_neg (by omega), hstores.toNodes.endOf hend]
    dsimp only
    obtain ⟨left, e, right, rfl, hleft, hright⟩ := exists_entryAt hfull whr
    have hp : p ∈ ql.nodes := hstores.toNodes.mem mem_self
    have hraw := hsettled.toKempt.endOf (hstores.toNodes.endOf hend)
    obtain ⟨zl, hzl, -, hrep⟩ := (hstores.holds _ mem_self).of_raw hraw
    rw [yields_bind]
    refine gives_rawAt hp hzl ?_
    rw [ziplistIndex_end hrep hleft hright, yields_bind, yields_orFail, yields_bind, ziplistGet_spec hrep,
      yields_orFail]
    dsimp only
    unfold deref
    rw [yields_bind, yields_orFail, yields_bind]
    rw [(@elements_at p as bs whr left right e hend hleft hright).1]
    exact yields_mono (gives_deleteEnd hstores hsettled hsized hend hleft hright)
      fun _ ql' hql' => ⟨rfl, hql'⟩

/-! ## Runs -/

/-- A call at an end. -/
inductive Act
  | push (value : Bytes) (whr : Where)
  | pop (whr : Where)

/-- The call, and what it pops. -/
def Act.run (pf : Platform) : Act → M (Option Value)
  | .push value whr => do
      let _ ← quicklistPush pf value whr
      return none
  | .pop whr => quicklistPop pf whr

/-- The call on a deque. -/
def Act.apply (l : List Bytes) : Act → List Bytes
  | .push value whr => addTo l value whr
  | .pop whr => removeFrom l whr

/-- What is popped from a deque. -/
def Act.popped (l : List Bytes) : Act → Option Bytes
  | .push _ _ => none
  | .pop whr => elementAt l whr

/-- Calls one after the other. -/
def runActs (pf : Platform) : List Act → M (List (Option Value))
  | [] => return []
  | act :: acts => do
      let r ← act.run pf
      let rs ← runActs pf acts
      return r :: rs

/-- What is left of a deque, and what was popped. -/
def leftOf (l : List Bytes) (acts : List Act) : List Bytes := acts.foldl Act.apply l

def poppedFrom : List Bytes → List Act → List (Option Bytes)
  | _, [] => []
  | l, act :: acts => act.popped l :: poppedFrom (act.apply l) acts

/-- No list of a run has 2^32 nodes. -/
def FewNodes (pf : Platform) : List Act → QuickList → Prop
  | [], _ => True
  | act :: acts, ql =>
      yields (fun _ => True) (act.run pf) (fun _ ql' => ql'.nodes.length < 2 ^ 32 ∧ FewNodes pf acts ql') ql

/-- The strings of a run are short. -/
def ShortActs (acts : List Act) : Prop :=
  ∀ value whr, .push value whr ∈ acts → value.length < 2 ^ 31 - 13

/-- One call. -/
theorem gives_act {l : List Bytes} {act : Act} (h : IsDeque pf ql l)
    (hshort : ∀ value whr, act = .push value whr → value.length < 2 ^ 31 - 13) :
    Gives (act.run pf) (fun r ql' => r.map valueBytes = act.popped l ∧
      ql'.nodes.length ≤ ql.nodes.length + 1 ∧
      (ql'.nodes.length < 2 ^ 32 → IsDeque pf ql' (act.apply l))) ql := by
  cases act with
  | push value whr =>
      unfold Gives Act.run
      dsimp only
      rw [yields_bind]
      exact yields_mono (gives_quicklistPush h (hshort value whr rfl)) fun _ ql' hql' => ⟨rfl, hql'⟩
  | pop whr =>
      exact yields_mono (gives_quicklistPop h) fun r ql' ⟨hr, hle, hql'⟩ =>
        ⟨hr, Nat.le_succ_of_le hle, fun _ => hql'⟩

/-- All calls of a run. -/
theorem gives_runActs : ∀ (acts : List Act) (ql : QuickList) (l : List Bytes), IsDeque pf ql l →
    ShortActs acts → FewNodes pf acts ql →
    Gives (runActs pf acts) (fun rs ql' => rs.map (Option.map valueBytes) = poppedFrom l acts ∧
      IsDeque pf ql' (leftOf l acts)) ql := by
  intro acts
  induction acts with
  | nil =>
      intro ql l h _ _
      exact ⟨rfl, h⟩
  | cons act acts ih =>
      intro ql l h hshort hfew
      unfold Gives runActs
      rw [yields_bind]
      have hstep := gives_act h fun value whr heq => hshort value whr (heq ▸ List.mem_cons_self)
      refine yields_mono (yields_and_of_ok hstep hfew) fun r ql₁ hql₁ => ?_
      obtain ⟨⟨hr, -, hgood⟩, hfew₁, hrest⟩ := hql₁
      rw [yields_bind]
      refine yields_mono (ih ql₁ _ (hgood hfew₁)
        (fun value whr hin => hshort value whr (List.mem_cons_of_mem _ hin)) hrest) fun rs ql' hql' => ?_
      rw [yields_pure, List.map_cons, hr, hql'.1]
      exact ⟨rfl, hql'.2⟩

/-- A run of less than 2^32 calls never gets so many nodes. -/
theorem fewNodes_of_length : ∀ (acts : List Act) (ql : QuickList) (l : List Bytes), IsDeque pf ql l →
    ShortActs acts → ql.nodes.length + acts.length < 2 ^ 32 → FewNodes pf acts ql := by
  intro acts
  induction acts with
  | nil =>
      intro ql l _ _ _
      trivial
  | cons act acts ih =>
      intro ql l h hshort hmany
      rw [List.length_cons] at hmany
      have hstep := gives_act h fun value whr heq => hshort value whr (heq ▸ List.mem_cons_self)
      refine yields_weaken (yields_mono hstep fun r ql₁ hql₁ => ?_) fun _ hno => hno.elim
      obtain ⟨-, hle, hgood⟩ := hql₁
      exact ⟨by omega, ih ql₁ _ (hgood (by omega))
        (fun value whr hin => hshort value whr (List.mem_cons_of_mem _ hin)) (by omega)⟩

theorem quicklistNew_isDeque (pf : Platform) (fill compress : Int) :
    IsDeque pf (quicklistNew fill compress) [] := by
  have htidy := @quicklistNew_tidy pf fill compress
  refine ⟨[], ⟨⟨rfl, htidy.nodup, htidy.fresh, fun n hn => by cases hn⟩, fun n hn => (by cases hn), rfl, rfl,
    fun n hn => (by cases hn), fun n hn => (by cases hn), by decide, by decide⟩,
    ⟨htidy.toKempt, fun p hp => by cases hp⟩, fun n hn => (by cases hn), rfl⟩

/-- Two strings and an integer, popped from both ends. -/
def fiveActs : List Act :=
  [.push [0] .HEAD, .push [49, 50] .TAIL, .push [1] .TAIL, .pop .HEAD, .pop .TAIL]

theorem fiveActs_short : ShortActs fiveActs := by
  intro value whr hin
  unfold fiveActs at hin
  simp only [List.mem_cons, Act.push.injEq, List.not_mem_nil, or_false, reduceCtorEq] at hin
  rcases hin with ⟨rfl, -⟩ | ⟨rfl, -⟩ | ⟨rfl, -⟩ <;> decide

-- the programs here are not run
attribute [local irreducible] runActs fiveActs

theorem fiveActs_few : FewNodes plainPlatform fiveActs (quicklistNew (-2) 1) := by
  refine fewNodes_of_length _ _ [] (quicklistNew_isDeque _ _ _) fiveActs_short ?_
  unfold fiveActs
  decide

/-- A string that is as long as an `int` can tell, pushed twice. -/
def hugeActs : List Act := [.push hugeString .TAIL, .push hugeString .TAIL]

/-! ## Pushes of any string

What is said of the outcome of a push, if it has one, whatever it does to the ziplist. -/

section outcomes

theorem yields_nodeAt_of {Q : QuicklistNode → QuickList → Prop} (h : p ∈ ql.nodes → Q (ql.node p) ql) :
    yields (fun _ => True) (nodeAt p) Q ql := by
  unfold nodeAt
  rw [yields_bind, yields_get, yields_ite]
  split
  · next hp => exact h hp
  · trivial

theorem yields_orFail_of {α : Type} {o : Option α} {e : Fault} {Q : α → QuickList → Prop}
    (h : ∀ a, o = some a → Q a ql) : yields (fun _ => True) (orFail e o) Q ql := by
  cases o with
  | none => trivial
  | some a => exact h a rfl

theorem yields_rawAt_of {Q : Bytes → QuickList → Prop}
    (h : ∀ zl, p ∈ ql.nodes → (ql.node p).zl = .raw zl → Q zl ql) :
    yields (fun _ => True) (rawAt p) Q ql := by
  unfold rawAt
  rw [yields_bind]
  refine yields_nodeAt_of fun hp => ?_
  cases hzl : (ql.node p).zl with
  | raw zl => exact h zl hp hzl
  | lzf c => trivial

/-- A push into a node: only this node is another one. -/
structure Grown (p : Nat) (ql ql' : QuickList) : Prop where
  nodes : ql'.nodes = ql.nodes
  fresh : ql'.fresh = ql.fresh
  len : ql'.len = ql.len
  fill : ql'.fill = ql.fill
  raw : ql'.Raw p
  count : (ql'.node p).count = ((ql.node p).count + 1) % 2 ^ 16
  other : ∀ q, q ≠ p → ql'.node q = ql.node q

/-- Where there is room, a push changes the node at the end. -/
theorem yields_push_room {value copied : Bytes} (hend : ql.endOf whr = some p)
    (hallow : quicklistNodeAllowInsert (some (ql.node p)) ql.fill value.length = true) :
    yields (fun _ => True) (quicklistPushCopying pf whr value copied)
      (fun new ql' => new = false ∧ Grown p ql ql') ql := by
  unfold quicklistPushCopying pushInto quicklistNodeUpdateSz setZl setCount Quicklist.setNode
    Quicklist.addCount deref
  rw [yields_bind, yields_get]
  dsimp only
  rw [hend, Option.map_some, hallow, if_pos rfl]
  simp only [yields_bind]
  rw [yields_orFail]
  refine yields_rawAt_of fun zl _ _ => yields_orFail_of fun zl' _ => yields_nodeAt_of fun _ => ?_
  rw [yields_modify]
  refine yields_rawAt_of fun zl₁ _ _ => yields_orFail_of fun sz _ => yields_nodeAt_of fun _ => ?_
  rw [yields_modify, yields_modify, yields_get, setNode_setNode, setNode_same]
  have hend' : QuickList.endOf { ql.setNode p ⟨.raw zl', sz, (ql.node p).count, (ql.node p).recompress⟩ with
      count := toULong (ql.count + 1) } whr = some p := by
    cases whr with
    | HEAD => exact hend
    | TAIL => exact hend
  refine yields_orFail_of fun q hq => ?_
  obtain rfl : p = q := Option.some.inj (hend'.symm.trans hq)
  refine yields_nodeAt_of fun _ => yields_nodeAt_of fun _ => ?_
  rw [yields_modify, yields_pure, decide_eq_false (not_not_intro rfl)]
  refine ⟨rfl, rfl, rfl, rfl, rfl, ?_, ?_, fun q hq => ?_⟩
  · unfold QuickList.Raw
    rw [setNode_same]
    dsimp only
    rw [setNode_same]
    trivial
  · rw [setNode_same]
    dsimp only
    rw [setNode_same]
    show ((((ql.node p).count + 1 : Nat) : Int) % 2 ^ 16).toNat = _
    omega
  · rw [setNode_other hq]
    exact setNode_other hq

end outcomes

/-- No list of a node holds two such strings. -/
theorem not_holds_hugeActs : ¬ ∃ (rs : List (Option Value)) (ql : QuickList),
    (rs.map (Option.map valueBytes) = poppedFrom [] hugeActs ∧
      ql.count = (leftOf [] hugeActs).length ∧ ql.len = ql.nodes.length ∧
      ∃ ns, Stores plainPlatform ql ns ∧ elements ns = leftOf [] hugeActs) ∧ ql.nodes.length = 1 := by
  rintro ⟨rs, ql, ⟨-, -, -, ns, hstores, helements⟩, hone⟩
  rw [hstores.nodes, List.length_map] at hone
  obtain ⟨⟨p, es⟩, rfl⟩ := List.length_eq_one_iff.mp hone
  rw [elements_cons, elements_nil, List.append_nil] at helements
  obtain ⟨zl, -, -, hrep⟩ := hstores.holds _ List.mem_cons_self
  refine not_represents_pair ?_ ?_ ?_ es helements hrep
  all_goals
    rw [length_hugeString]
    decide

/-- The second string goes where the first one is. -/
theorem pushes_one {value : Bytes} (hvalue : value.length = 2147483647) (h : Stores pf ql [])
    (hfill : ql.fill = -2) : yields (fun _ => True) (runActs pf [.push value .TAIL, .push value .TAIL])
      (fun _ ql' => ql'.nodes.length = 1) ql := by
  have hnone : quicklistNodeAllowInsert ((ql.endOf .TAIL).map ql.node) ql.fill value.length = false := by
    rw [h.toNodes.endOf_nil]
    rfl
  unfold runActs Act.run quicklistPush quicklistPushTail
  simp only [yields_bind]
  refine yields_weaken (gives_push_new h hnone ?_ fun ql₁ new hbytes hraw hmany hfill₁ hgood => ?_)
    fun _ hno => hno.elim
  · rw [hvalue]
    decide
  · obtain ⟨hstores₁, -⟩ := hgood (by decide)
    have hend : ql₁.endOf .TAIL = some ql.fresh :=
      @Nodes.endOf pf ql₁ ql.fresh [] [] [new] .TAIL hstores₁.toNodes rfl
    have hsz := (hstores₁.holds _ List.mem_cons_self).sz
    have hlong := new.length_bytes (by rw [hbytes, hvalue]; decide)
    rw [hbytes, hvalue] at hlong
    rw [hvalue] at hraw
    dsimp only at hsz
    rw [size_cons, size_nil] at hsz
    unfold runActs Act.run quicklistPush quicklistPushTail
    simp only [yields_bind, yields_pure]
    refine yields_mono (yields_push_room hend ?_) fun _ ql₂ hql₂ => ?_
    · rw [hfill₁, hfill, hvalue]
      unfold quicklistNodeAllowInsert
      dsimp only
      rw [if_pos]
      unfold meetsOptimizationRequirement
      rw [if_neg (by decide)]
      show decide (_ ≤ 8192) = true
      refine decide_eq_true ?_
      rw [if_neg (by decide), if_neg (by decide), if_neg (by decide)]
      unfold toUInt
      omega
    · unfold runActs
      rw [yields_pure, hql₂.2.nodes]
      exact hmany

theorem hugeActs_one : yields (fun _ => True) (runActs plainPlatform hugeActs)
    (fun _ ql => ql.nodes.length = 1) (quicklistNew (-2) 0) := by
  obtain ⟨ns, hstores, -⟩ := quicklistNew_isDeque plainPlatform (-2) 0
  obtain rfl : ns = [] := by
    have hnodes : [] = ns.map Prod.fst := hstores.nodes
    exact List.map_eq_nil_iff.mp hnodes.symm
  exact pushes_one length_hugeString hstores rfl

end Quicklist

end RedisCore
