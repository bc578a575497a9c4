/-
# `RedisCore.Quicklist.Fill` — how full pushes make the nodes

A positive fill is a number of elements.  It is kept in a signed field of 16 bits, which has no
room for the largest number that `quicklistSetFill` lets through: that one comes back negative,
as no size either, and then no node ever has room.

Runs of pushes are followed whatever the strings do to the ziplists: the counts of the nodes are
right in every list that a run reaches.
-/
import RedisCore.Quicklist.Deque
import RedisCore.Quicklist.EndsRuns

namespace RedisCore

namespace Quicklist

open CInt Marked Ziplist

variable {pf : Platform} {ql ql' : QuickList} {p q : Nat} {whr : Where} {node : QuicklistNode}
  {value : Bytes} {fill : Int}

/-! ## The test for room -/

/-- The size that `_quicklistNodeAllowInsert` expects of a node with one more element. -/
def newSize (node : QuicklistNode) (sz : Nat) : Nat :=
  toUInt (node.sz + sz + ((if sz < 254 then 1 else 5) +
    (if sz < 64 then 1 else if sz < 16384 then 2 else 5)) : Nat)

theorem allowInsert_eq (node : QuicklistNode) (fill : Int) (sz : Nat) :
    quicklistNodeAllowInsert (some node) fill sz =
      if meetsOptimizationRequirement (newSize node sz) fill then true
      else if newSize node sz > SIZE_SAFETY_LIMIT then false
      else decide ((node.count : Int) < fill) := rfl

theorem allowInsert_nonneg (hfill : 0 ≤ fill) (sz : Nat) :
    quicklistNodeAllowInsert (some node) fill sz = true ↔
      newSize node sz ≤ SIZE_SAFETY_LIMIT ∧ (node.count : Int) < fill := by
  have hmeets : meetsOptimizationRequirement (newSize node sz) fill = false := if_pos hfill
  rw [allowInsert_eq, hmeets, if_neg Bool.false_ne_true]
  split
  · next hbig => exact ⟨fun h => (by cases h), fun h => absurd h.1 (Nat.not_le_of_lt hbig)⟩
  · next hsmall => rw [decide_eq_true_iff, and_iff_right (Nat.le_of_not_lt hsmall)]

/-- A fill that is no number of elements and no size. -/
theorem allowInsert_negative (hfill : fill < -5) (sz : Nat) :
    quicklistNodeAllowInsert (some node) fill sz = false := by
  have hlevel : optimizationLevel[(-fill - 1).toNat]? = none := by
    refine List.getElem?_eq_none ?_
    show 5 ≤ _
    omega
  have hmeets : meetsOptimizationRequirement (newSize node sz) fill = false := by
    unfold meetsOptimizationRequirement
    rw [if_neg (by omega), hlevel]
  rw [allowInsert_eq, hmeets, if_neg Bool.false_ne_true]
  split
  · rfl
  · exact decide_eq_false (by omega)

/-! ## One push -/

/-- A new node at an end, beside which nothing counts otherwise than before. -/
structure Began (pf : Platform) (whr : Where) (node : QuicklistNode) (ql ql' : QuickList) : Prop where
  ready : Ready pf ql'
  nodes : ql'.nodes = addTo ql.nodes ql.fresh whr
  fresh : ql'.fresh = ql.fresh + 1
  len : ql'.len ≤ ql'.nodes.length
  fill : ql'.fill = ql.fill
  new : (ql'.node ql.fresh).count = node.count
  other : ∀ q, q ≠ ql.fresh → (ql'.node q).count = (ql.node q).count

/-- A list of which only the number of nodes matters here. -/
structure Orderly (pf : Platform) (ql : QuickList) : Prop extends Ready pf ql where
  old : ∀ p ∈ ql.nodes, p < ql.fresh
  len : ql.len ≤ ql.nodes.length

theorem mem_addTo {l : List Nat} : q ∈ addTo l p whr ↔ q = p ∨ q ∈ l := by
  cases whr with
  | HEAD => exact List.mem_cons
  | TAIL =>
    show q ∈ l ++ [p] ↔ _
    rw [List.mem_append, List.mem_singleton, or_comm]

theorem Orderly.linked (h : Orderly pf ql) (hraw : node.zl.IsRaw) :
    Ready pf (linkNode ql (addTo ql.nodes ql.fresh whr) node) where
  nodup := by
    have hout : ql.fresh ∉ ql.nodes := fun hin => Nat.lt_irrefl _ (h.old _ hin)
    cases whr with
    | HEAD => exact List.nodup_cons.mpr ⟨hout, h.nodup⟩
    | TAIL => exact List.nodup_append.mpr ⟨h.nodup, List.nodup_singleton _, fun a ha b hb heq =>
        hout (List.mem_singleton.mp hb ▸ heq ▸ ha)⟩
  sound p hp := by
    rcases mem_addTo.mp hp with rfl | hin
    · rw [linkNode_node]
      exact sound_of_raw hraw
    · rw [linkNode_other (Nat.ne_of_lt (h.old p hin))]
      exact h.sound p hin

theorem insertBeside_end {l : List Nat} (hnodup : l.Nodup)
    (hend : (match whr with | .HEAD => l.head? | .TAIL => l.getLast?) = some p) :
    insertBeside l p q (decide (whr = .TAIL)) = addTo l q whr := by
  cases whr with
  | HEAD => exact insertBeside_head hend
  | TAIL => exact insertBeside_tail hnodup hend

/-- The sweep on a list of which the ziplists may be anything. -/
theorem yields_quicklistCompress (h : Ready pf ql) (hlen : ql.len ≤ ql.nodes.length + 1) :
    yields (fun _ => True) (quicklistCompress pf p) (fun _ ql' => Recoded pf ql ql') ql := by
  unfold quicklistCompress
  rw [yields_bind]
  refine yields_nodeAt_of fun hp => ?_
  have hnode : ∀ q, some p = some q → q ∈ ql.nodes := fun q hq => Option.some.inj hq ▸ hp
  rw [yields_ite]
  split
  · unfold recompress
    rw [yields_bind, yields_get, yields_bind, yields_mark]
    exact yields_of_wp (wp_quicklistCompressNode hnode (.inl trivial) fun ql' hrec _ => hrec)
  · exact yields_of_wp (wp_quicklistCompressTo h hnode hlen (.inl trivial) fun ql' hrec _ => hrec)

theorem yields_insertNode_end (h : Orderly pf ql) (hraw : node.zl.IsRaw) :
    yields (fun _ => True) (quicklistInsertNode pf (ql.endOf whr) node (decide (whr = .TAIL)))
      (fun new ql' => new = ql.fresh ∧ Began pf whr node ql ql') ql := by
  have hlinked := @Orderly.linked pf ql whr node h hraw
  have hmany : (addTo ql.nodes ql.fresh whr).length = ql.nodes.length + 1 := length_addTo
  have hlen := h.len
  -- the counter goes up behind a sweep
  have hdone : ∀ ql₁, Recoded pf (linkNode ql (addTo ql.nodes ql.fresh whr) node) ql₁ →
      Began pf whr node ql { ql₁ with len := toUInt (ql₁.len + 1 : Nat) } := by
    intro ql₁ hrec
    have hready := hlinked.recoded hrec
    refine ⟨⟨hready.nodup, hready.sound⟩, hrec.nodes, hrec.fresh, ?_, hrec.fill, ?_, fun q hq => ?_⟩
    · show toUInt (ql₁.len + 1 : Nat) ≤ ql₁.nodes.length
      have hlen₁ : ql₁.len = ql.len := hrec.len
      have hnodes₁ : ql₁.nodes = addTo ql.nodes ql.fresh whr := hrec.nodes
      rw [hnodes₁, hmany, hlen₁]
      unfold toUInt
      omega
    · show (ql₁.node ql.fresh).count = _
      rw [(hrec.node _).count, linkNode_node]
    · show (ql₁.node q).count = _
      rw [(hrec.node _).count, linkNode_other hq]
  unfold quicklistInsertNode incrLen
  rw [yields_bind, yields_get]
  rcases hend : ql.endOf whr with _ | p
  · dsimp only
    rw [yields_ite, yields_fail]
    split
    case isFalse => trivial
    case isTrue hempty =>
      have hnodes : [ql.fresh] = addTo ql.nodes ql.fresh whr := by
        rw [hempty.2]
        cases whr with
        | HEAD => rfl
        | TAIL => rfl
      simp only [yields_bind, yields_set, yields_get, yields_mark, yields_modify, yields_pure]
      rw [hnodes]
      exact ⟨trivial, hdone _ (.refl _)⟩
  · dsimp only
    rw [yields_bind]
    refine yields_nodeAt_of fun hp => ?_
    rw [yields_ite, yields_fail]
    split
    case isTrue => trivial
    case isFalse =>
      have hnodes : insertBeside ql.nodes p ql.fresh (decide (whr = .TAIL)) =
          addTo ql.nodes ql.fresh whr := by
        refine insertBeside_end h.nodup ?_
        cases whr with
        | HEAD => exact hend
        | TAIL => exact hend
      simp only [yields_bind, yields_set, yields_get, yields_mark, yields_modify, yields_pure]
      rw [hnodes]
      refine yields_mono (yields_quicklistCompress hlinked ?_) fun _ ql₁ hrec => ⟨trivial, hdone ql₁ hrec⟩
      show ql.len ≤ (addTo ql.nodes ql.fresh whr).length + 1
      omega

theorem endOf_addTo (hnodes : ql'.nodes = addTo ql.nodes p whr) : ql'.endOf whr = some p := by
  cases whr with
  | HEAD =>
    show ql'.nodes.head? = _
    rw [hnodes]
    rfl
  | TAIL =>
    show ql'.nodes.getLast? = _
    rw [hnodes]
    exact List.getLast?_concat

/-- Where there is no room, a push begins a node. -/
theorem yields_push_new {copied : Bytes} (h : Orderly pf ql)
    (hallow : quicklistNodeAllowInsert ((ql.endOf whr).map ql.node) ql.fill value.length = false) :
    yields (fun _ => True) (quicklistPushCopying pf whr value copied)
      (fun _ ql' => Began pf whr ⟨.raw [], 0, 1, false⟩ ql ql') ql := by
  unfold quicklistPushCopying nodeWith Quicklist.addCount deref setCount Quicklist.setNode
  rw [yields_bind, yields_get]
  dsimp only
  rw [hallow, if_neg Bool.false_ne_true]
  simp only [yields_bind]
  refine yields_orFail_of fun zl _ => yields_orFail_of fun sz _ => ?_
  rw [yields_pure]
  refine yields_mono (yields_insertNode_end h trivial) fun new ql₁ hnew => ?_
  obtain ⟨_, hbegan⟩ := hnew
  rw [yields_pure, yields_modify, yields_get]
  have hend := @endOf_addTo ql ql₁ ql.fresh whr hbegan.nodes
  have hend' : QuickList.endOf { ql₁ with count := toULong (ql₁.count + 1) } whr = some ql.fresh := by
    cases whr with
    | HEAD => exact hend
    | TAIL => exact hend
  refine yields_orFail_of fun q hq => ?_
  obtain rfl : ql.fresh = q := Option.some.inj (hend'.symm.trans hq)
  refine yields_nodeAt_of fun _ => yields_nodeAt_of fun _ => ?_
  rw [yields_modify, yields_pure]
  have hcount : (ql₁.node ql.fresh).count = 0 := hbegan.new
  refine ⟨⟨hbegan.ready.nodup, fun p hp => ?_⟩, hbegan.nodes, hbegan.fresh, hbegan.len, hbegan.fill,
    ?_, fun q hq => ?_⟩
  · by_cases hpq : p = ql.fresh
    · rw [hpq, setNode_same]
      exact hbegan.ready.sound _ (hpq ▸ hp)
    · rw [setNode_other hpq]
      exact hbegan.ready.sound p hp
  · rw [setNode_same]
    show ((((ql₁.node ql.fresh).count + 1 : Nat) : Int) % 2 ^ 16).toNat = 1
    rw [hcount]
    rfl
  · rw [setNode_other hq]
    exact hbegan.other q hq

/-! ## Runs -/

/-- Strings pushed one after the other. -/
def pushAll (pf : Platform) (whr : Where) : List Bytes → M Unit
  | [] => return ()
  | value :: values => do
      let _ ← quicklistPush pf value whr
      pushAll pf whr values

/-- A list of nodes with at most `m` elements. -/
structure Bounded (pf : Platform) (fill : Int) (m : Nat) (ql : QuickList) : Prop
    extends Orderly pf ql where
  fill : ql.fill = fill
  bound : ∀ p ∈ ql.nodes, (ql.node p).count ≤ m

/-- A push has a reason for a new node: the one at the end has `m` elements, or gets too large. -/
def MayBegin (whr : Where) (m : Int) (ql : QuickList) (value : Bytes) : Prop :=
  ∀ p, ql.endOf whr = some p →
    m ≤ (ql.node p).count ∨ SIZE_SAFETY_LIMIT < newSize (ql.node p) value.length

theorem quicklistPush_eq : quicklistPush pf value whr = quicklistPushCopying pf whr value value := by
  cases whr with
  | HEAD => rfl
  | TAIL => rfl

/-- One push, with a fill that the field holds. -/
theorem Bounded.push {m : Nat} (h : Bounded pf m m ql) (hpos : 1 ≤ m) (hm : m < 2 ^ 15) :
    yields (fun _ => True) (quicklistPush pf value whr)
      (fun new ql' => Bounded pf m m ql' ∧ (new = true → MayBegin whr m ql value)) ql := by
  rw [quicklistPush_eq]
  have hfill := h.fill
  by_cases hroom : ∃ p, ql.endOf whr = some p ∧
      quicklistNodeAllowInsert (some (ql.node p)) ql.fill value.length = true
  · obtain ⟨p, hend, hallow⟩ := hroom
    refine yields_mono (yields_push_room hend hallow) fun new ql' ⟨hnew, hgrown⟩ =>
      ⟨⟨⟨⟨hgrown.nodes ▸ h.nodup, fun q hq => ?_⟩, fun q hq => ?_, ?_⟩, hgrown.fill.trans hfill,
        fun q hq => ?_⟩, fun htrue => ?_⟩
    · by_cases hqp : q = p
      · rw [hqp]
        exact sound_of_raw hgrown.raw
      · rw [hgrown.other q hqp]
        exact h.sound q (hgrown.nodes ▸ hq)
    · rw [hgrown.fresh]
      exact h.old q (hgrown.nodes ▸ hq)
    · rw [hgrown.len, hgrown.nodes]
      exact h.len
    · by_cases hqp : q = p
      · rw [hfill, allowInsert_nonneg (by omega)] at hallow
        rw [hqp, hgrown.count]
        omega
      · rw [hgrown.other q hqp]
        exact h.bound q (hgrown.nodes ▸ hq)
    · rw [hnew] at htrue
      cases htrue
  · have hallow : quicklistNodeAllowInsert ((ql.endOf whr).map ql.node) ql.fill value.length =
        false := by
      rcases hend : ql.endOf whr with _ | p
      · rfl
      · exact Bool.eq_false_of_not_eq_true fun hyes => hroom ⟨p, hend, hyes⟩
    refine yields_mono (yields_push_new h.toOrderly hallow) fun new ql' hbegan =>
      ⟨⟨⟨hbegan.ready, fun q hq => ?_, hbegan.len⟩, hbegan.fill.trans hfill, fun q hq => ?_⟩,
        fun _ p hend => ?_⟩
    · rw [hbegan.nodes] at hq
      rw [hbegan.fresh]
      rcases mem_addTo.mp hq with rfl | hin
      · omega
      · have := h.old q hin
        omega
    · rw [hbegan.nodes] at hq
      by_cases hqf : q = ql.fresh
      · rw [hqf, hbegan.new]
        exact hpos
      · rw [hbegan.other q hqf]
        exact h.bound q ((mem_addTo.mp hq).resolve_left hqf)
    · have hno : ¬ quicklistNodeAllowInsert (some (ql.node p)) ql.fill value.length = true :=
        fun hyes => hroom ⟨p, hend, hyes⟩
      rw [hfill, allowInsert_nonneg (by omega)] at hno
      omega

/-- Any number of pushes. -/
theorem Bounded.pushAll {m : Nat} (hpos : 1 ≤ m) (hm : m < 2 ^ 15) : ∀ (values : List Bytes)
    (ql : QuickList), Bounded pf m m ql →
    yields (fun _ => True) (pushAll pf whr values) (fun _ ql' => Bounded pf m m ql') ql := by
  intro values
  induction values with
  | nil =>
    intro ql h
    exact h
  | cons value values ih =>
    intro ql h
    unfold Quicklist.pushAll
    rw [yields_bind]
    exact yields_mono (h.push hpos hm) fun _ ql' ⟨h', _⟩ => ih ql' h'

/-- The elements after some pushes. -/
def pushed (whr : Where) (l values : List Bytes) : List Bytes :=
  values.foldl (fun l value => addTo l value whr) l

theorem gives_pushAll : ∀ (values : List Bytes) (ql : QuickList) (l : List Bytes), IsDeque pf ql l →
    (∀ value ∈ values, value.length < 2 ^ 31 - 13) → ql.nodes.length + values.length < 2 ^ 32 →
    Gives (pushAll pf whr values) (fun _ ql' => IsDeque pf ql' (pushed whr l values)) ql := by
  intro values
  induction values with
  | nil =>
    intro ql l h _ _
    exact h
  | cons value values ih =>
    intro ql l h hshort hmany
    rw [List.length_cons] at hmany
    unfold Gives Quicklist.pushAll
    rw [yields_bind]
    refine yields_mono (gives_quicklistPush h (hshort value List.mem_cons_self))
      fun _ ql' ⟨hle, hgood⟩ => ?_
    exact ih ql' _ (hgood (by omega)) (fun v hv => hshort v (List.mem_cons_of_mem _ hv)) (by omega)

/-! ## The requested fill -/

/-- The number of elements that is asked for, as `quicklistSetFill` cuts it. -/
def requested (fill : Int) : Int := min fill FILL_MAX

/-- Pushes at one end pack the nodes as asked: no node has more elements, by its count and, where
the strings fit into ziplists, in its ziplist; and a new node has a reason. -/
structure Packs (pf : Platform) (whr : Where) (fill : Int) (ql : QuickList) : Prop where
  counts : ∀ values, yields (fun _ => True) (pushAll pf whr values)
    (fun _ ql' => ∀ p ∈ ql'.nodes, ((ql'.node p).count : Int) ≤ requested fill) ql
  entries : ∀ values : List Bytes, (∀ value ∈ values, value.length < 2 ^ 31 - 13) →
    values.length < 2 ^ 32 → Gives (pushAll pf whr values)
      (fun _ ql' => ∃ ns, Stores pf ql' ns ∧ elements ns = pushed whr [] values ∧
        ∀ n ∈ ns, (n.2.length : Int) ≤ requested fill) ql
  begins : ∀ values value, yields (fun _ => True) (pushAll pf whr values)
    (fun _ ql' => yields (fun _ => True) (quicklistPush pf value whr)
      (fun new _ => new = true → MayBegin whr (requested fill) ql' value) ql') ql

/-- An empty list. -/
structure IsEmpty (ql : QuickList) : Prop where
  nodes : ql.nodes = []
  count : ql.count = 0
  len : ql.len = 0

theorem IsEmpty.isDeque (h : IsEmpty ql) (hdepth : ql.compress < 2 ^ 16) : IsDeque pf ql [] := by
  have hno : ∀ p, p ∉ ql.nodes := fun p hp => by
    rw [h.nodes] at hp
    cases hp
  refine ⟨[], ⟨⟨h.nodes, h.nodes ▸ List.nodup_nil, fun p hp => (hno p hp).elim, fun n hn => (by cases hn)⟩,
    fun n hn => (by cases hn), h.count, h.len, fun n hn => (by cases hn), fun n hn => (by cases hn),
    by decide, by decide⟩, ⟨⟨⟨h.nodes ▸ List.nodup_nil, fun p hp => (hno p hp).elim⟩,
    fun p hp => (hno p hp).elim, hdepth, fun _ p hp => (hno p hp).elim, fun p hp => ?_⟩,
    fun p hp => (hno p hp).elim⟩, fun n hn => (by cases hn), rfl⟩
  rcases hp with hp | hp
  · exact (hno p (List.mem_of_head? hp)).elim
  · exact (hno p (List.mem_of_getLast? hp)).elim

theorem IsEmpty.setOptions (h : IsEmpty ql) (fill depth : Int) :
    IsEmpty (quicklistSetOptions ql fill depth) := ⟨h.nodes, h.count, h.len⟩

theorem setOptions_fill (ql : QuickList) (hpos : 0 < fill) (depth : Int) :
    (quicklistSetOptions ql fill depth).fill = Int.bmod (requested fill) (2 ^ 16) := by
  show Int.bmod (if fill > FILL_MAX then FILL_MAX else if fill < -5 then -5 else fill) _ = _
  unfold requested
  congr 1
  split
  · omega
  · rw [if_neg (by omega)]
    omega

theorem setOptions_compress (ql : QuickList) (fill depth : Int) :
    (quicklistSetOptions ql fill depth).compress < 2 ^ 16 := by
  unfold quicklistSetOptions quicklistSetCompressDepth
  dsimp only
  omega

/-- Smaller fills are packed as asked. -/
theorem packs_small (h : IsEmpty ql) (hpos : 0 < fill) (hsmall : fill < FILL_MAX) (depth : Int) :
    Packs pf whr fill (quicklistSetOptions ql fill depth) := by
  have hmax : FILL_MAX = 2 ^ 15 := rfl
  obtain ⟨m, rfl⟩ := Int.eq_ofNat_of_zero_le (Int.le_of_lt hpos)
  have hreq : requested m = m := by
    unfold requested
    omega
  have hempty := h.setOptions m depth
  have hdeque := @IsEmpty.isDeque pf _ hempty (setOptions_compress ql m depth)
  have hbounded : Bounded pf m m (quicklistSetOptions ql m depth) := by
    have hno : ∀ p, p ∉ (quicklistSetOptions ql m depth).nodes := fun p hp => by
      rw [hempty.nodes] at hp
      cases hp
    refine ⟨⟨⟨hempty.nodes ▸ List.nodup_nil, fun p hp => (hno p hp).elim⟩,
      fun p hp => (hno p hp).elim, ?_⟩, ?_, fun p hp => (hno p hp).elim⟩
    · rw [hempty.len]
      exact Nat.zero_le _
    · rw [setOptions_fill ql hpos, hreq, Int.bmod_eq_of_le (by omega) (by omega)]
  have hrun := fun values => @Bounded.pushAll pf whr m (by omega) (by omega) values _ hbounded
  refine ⟨fun values => ?_, fun values hshort hmany => ?_, fun values value => ?_⟩
  · rw [hreq]
    exact yields_mono (hrun values) fun _ ql' hb p hp => by
      have := hb.bound p hp
      omega
  · have hgives := @gives_pushAll pf whr values _ [] hdeque hshort (by
      rw [hempty.nodes]
      simpa using hmany)
    refine yields_mono (yields_and_of_ok hgives (hrun values)) fun _ ql' ⟨hd, hb⟩ => ?_
    obtain ⟨ns, hstores, -, -, helements⟩ := hd
    refine ⟨ns, hstores, helements, fun n hn => ?_⟩
    have hbound := hb.bound n.1 (hstores.toNodes.mem hn)
    rw [hstores.counted n hn] at hbound
    rw [hreq]
    omega
  · rw [hreq]
    exact yields_mono (hrun values) fun _ ql' hb =>
      yields_mono (hb.push (by omega) (by omega)) fun _ _ hnew => hnew.2

/-- With the largest fill the second push begins a node beside one that has room. -/
theorem not_packs_large (h : IsEmpty ql) (hlarge : FILL_MAX ≤ fill) (depth : Int) :
    ¬ Packs pf whr fill (quicklistSetOptions ql fill depth) := by
  intro hpacks
  have hmax : FILL_MAX = 2 ^ 15 := rfl
  have hreq : requested fill = 2 ^ 15 := by
    unfold requested
    omega
  have hfill := setOptions_fill ql (show 0 < fill by omega) depth
  rw [hreq, show Int.bmod (2 ^ 15) (2 ^ 16) = -(2 ^ 15) from rfl] at hfill
  obtain ⟨ns, hstores, -, -, -⟩ :=
    @IsEmpty.isDeque pf _ (h.setOptions fill depth) (setOptions_compress ql fill depth)
  obtain rfl : ns = [] := by
    have hnodes := hstores.nodes
    rw [(h.setOptions fill depth).nodes] at hnodes
    exact List.map_eq_nil_iff.mp hnodes.symm
  -- a push of the empty string begins a node in any case
  have hpush : ∀ {ql' : QuickList} {ms : Shape}, Stores pf ql' ms → ql'.fill = -(2 ^ 15) →
      ms.length + 1 < 2 ^ 32 → Gives (quicklistPush pf [] whr) (fun new ql'' => new = true ∧
        ql''.fill = -(2 ^ 15) ∧ ∃ e : Entry, e.rawLen ≤ 14 ∧
          Stores pf ql'' (addTo ms (ql'.fresh, [e]) whr)) ql' := by
    intro ql' ms hms hfill' hmany
    rw [quicklistPush_eq]
    refine gives_push_new hms ?_ (by decide) fun ql'' e hbytes hraw _ hfill'' hgood =>
      ⟨rfl, hfill''.trans hfill', e, hraw, (hgood hmany).1⟩
    rcases ql'.endOf whr with _ | p
    · rfl
    · exact allowInsert_negative (by omega) _
  have hfirst : Gives (pushAll pf whr [[]]) (fun _ ql' => ql'.fill = -(2 ^ 15) ∧ ∃ p e,
      Entry.rawLen e ≤ 14 ∧ Stores pf ql' [(p, [e])]) (quicklistSetOptions ql fill depth) := by
    unfold Gives Quicklist.pushAll
    rw [yields_bind]
    refine yields_mono (hpush hstores hfill (by decide)) fun _ ql' ⟨_, hfill', e, hraw, hms⟩ => ?_
    unfold Quicklist.pushAll
    rw [yields_pure]
    refine ⟨hfill', (quicklistSetOptions ql fill depth).fresh, e, hraw, ?_⟩
    cases whr with
    | HEAD => exact hms
    | TAIL => exact hms
  obtain ⟨_, ql₁, ⟨hfill₁, p, e, hraw, hstores₁⟩, hbegins⟩ :=
    Gives.exists (yields_and_of_ok hfirst (hpacks.begins [[]] []))
  obtain ⟨new, _, ⟨hnew, -⟩, hmay⟩ :=
    Gives.exists (yields_and_of_ok (hpush hstores₁ hfill₁ (by rw [List.length_singleton]; decide)) hbegins)
  have hend : ql₁.endOf whr = some p := by
    cases whr with
    | HEAD => exact hstores₁.toNodes.endOf (show AtEnd [] [] Where.HEAD from rfl)
    | TAIL => exact hstores₁.toNodes.endOf (show AtEnd [] [] Where.TAIL from rfl)
  have hcount : (ql₁.node p).count = 1 := hstores₁.counted _ List.mem_cons_self
  have hsz : (ql₁.node p).sz = 11 + size [e] := (hstores₁.holds _ List.mem_cons_self).sz
  rw [size_cons, size_nil] at hsz
  rcases hmay hnew p hend with hfull | hbig
  · rw [hcount, hreq] at hfull
    omega
  · unfold newSize SIZE_SAFETY_LIMIT at hbig
    rw [List.length_nil, if_pos (by decide), if_pos (by decide), toUInt_eq (by omega)] at hbig
    omega

/-- **The fill.**  Pushes at one end of an empty list pack its nodes as the fill asks, a positive
one, if and only if it is less than the largest one. -/
theorem packs_iff (h : IsEmpty ql) (hpos : 0 < fill) (depth : Int) :
    Packs pf whr fill (quicklistSetOptions ql fill depth) ↔ fill < FILL_MAX := by
  constructor
  · intro hpacks
    by_contra hno
    exact not_packs_large h (Int.not_lt.mp hno) depth hpacks
  · intro hsmall
    exact packs_small h hpos hsmall depth

theorem quicklistCreate_isEmpty : IsEmpty quicklistCreate := ⟨rfl, rfl, rfl⟩

/-- Three elements to a node. -/
theorem packs_three : Packs plainPlatform .TAIL 3 (quicklistNew 3 0) :=
  (packs_iff quicklistCreate_isEmpty (by decide) 0).mpr (by decide)

/-- A fill of 32768. -/
theorem not_packs_max : ¬ ∀ (pf : Platform) (whr : Where) (fill depth : Int), 0 < fill →
    Packs pf whr fill (quicklistNew fill depth) := fun hall =>
  not_packs_large quicklistCreate_isEmpty (by decide) 0
    (hall plainPlatform .TAIL 32768 0 (by decide))

end Quicklist

end RedisCore
