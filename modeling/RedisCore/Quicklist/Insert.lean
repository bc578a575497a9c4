/-
# `RedisCore.Quicklist.Insert` — inserting beside an entry

`_quicklistInsert` puts a value into the node of the entry, into the node next to it, into a node
of its own, or into one half of the node, which is split.  The offset of the entry in its node
decides where, and it is negative if the index was counted from the tail of the list.  Where the
node has room this does not matter.  A split takes the offset for one that was counted from the
head, so the main result leaves it out for the others.
-/
import RedisCore.Ziplist.Merge
import RedisCore.Quicklist.Merging
import RedisCore.Quicklist.Session
import RedisCore.Quicklist.Depth

namespace RedisCore

namespace Quicklist

open CInt Marked Ziplist

variable {pf : Platform} {ql ql' : QuickList} {p q : Nat} {ns as bs : Shape} {es es' : List Entry}
  {node : QuicklistNode} {value : Bytes} {after : Bool}

/-! ## One node more, or one with other entries -/

/-- A node with other entries. -/
theorem Woven.setNode (h : Woven pf ql (as ++ (p, es) :: bs)) (hn : NodeHolds pf node es')
    (hcount : node.count = es'.length) (hshort : es'.length < 2 ^ 16) :
    Woven pf (ql.setNode p node) (as ++ (p, es') :: bs) where
  toNodes := h.toNodes.setNode hn
  counted := h.counted.setNode h.toNodes hcount
  len := by
    have hlen := h.len
    rw [List.length_append, List.length_cons] at hlen ⊢
    exact hlen
  short n hmem := by
    rcases mem_middle hmem with rfl | hin
    · exact hshort
    · exact h.short n (mem_around hin)
  count := h.count
  linkable := by
    have hlinkable := h.linkable
    rw [List.length_append, List.length_cons] at hlinkable ⊢
    exact hlinkable

theorem Same.setNode : Same ql (ql.setNode p node) := ⟨rfl, rfl, rfl, rfl⟩

/-- A new node among the others. -/
theorem Woven.linked {ql' : QuickList} (h : Woven pf ql (as ++ bs))
    (hl : Linked pf ql ql' node (as ++ (ql.fresh, es) :: bs)) (hcount : node.count = es.length)
    (hshort : es.length < 2 ^ 16)
    (hmany : as.length + bs.length + 1 < 2 ^ 32) : Woven pf ql' (as ++ (ql.fresh, es) :: bs) where
  toNodes := hl.nodes
  counted n hmem := by
    rcases mem_middle hmem with rfl | hin
    · rw [hl.newCount]
      exact hcount
    · rw [hl.counts n.1 (hl.nodes.other hin)]
      exact h.counted n hin
  len := by
    have hlen := h.len
    rw [List.length_append] at hlen
    rw [hl.len, List.length_append, List.length_cons, toUInt_eq (by omega)]
    omega
  short n hmem := by
    rcases mem_middle hmem with rfl | hin
    · exact hshort
    · exact h.short n hin
  count := hl.count ▸ h.count
  linkable := by
    rw [List.length_append, List.length_cons]
    omega

/-- `_quicklistInsert` into a node that has room. -/
theorem gives_insertInto {Q : Unit → QuickList → Prop} {edit : Bytes → Option Bytes} (es' : List Entry)
    (h : Woven pf ql (as ++ (p, es) :: bs))
    (hedit : ∀ zl, Ziplist.Represents zl es → ∃ zl', edit zl = some zl' ∧ Ziplist.Represents zl' es')
    (hlen : es'.length = es.length + 1) (hshort : es'.length < 2 ^ 16)
    (hQ : ∀ ql', Woven pf ql' (as ++ (p, es') :: bs) → Same ql ql' → Q () ql') :
    Gives (insertInto pf p edit) Q ql := by
  unfold Gives insertInto
  rw [yields_bind]
  refine gives_decompressForUse h.toNodes mem_self fun ql₁ hopen _ => ?_
  have h₁ := h.framed hopen.nodes hopen.frame
  have hp : p ∈ ql₁.nodes := hopen.nodes.mem mem_self
  obtain ⟨zl, hzl, hrep⟩ := hopen.raw
  obtain ⟨zl', hzl', hrep'⟩ := hedit zl hrep
  rw [yields_bind]
  refine gives_rawAt hp hzl ?_
  rw [hzl', yields_bind, yields_orFail, yields_bind]
  refine gives_setZl hp ?_
  rw [yields_bind]
  refine gives_nodeAt hp ?_
  rw [setNode_same, yields_bind]
  refine gives_setCount hp ?_
  rw [setNode_setNode, setNode_same, yields_bind]
  refine gives_updateSz hp (by rw [setNode_same]) hrep' ?_
  rw [setNode_setNode, setNode_same]
  dsimp only
  have hcount : (ql₁.node p).count = es.length := h₁.counted _ mem_self
  have h₂ := h₁.setNode (@nodeHolds_raw pf _ zl' ((((ql₁.node p).count + 1 : Nat) : Int) % 2 ^ 16).toNat
    (ql₁.node p).recompress hrep') (by dsimp only; omega) hshort
  refine gives_recompressOnly h₂.toNodes hp fun ql₂ hrec hnodes => ?_
  exact hQ ql₂ (h₂.framed hnodes hrec.frame) (hopen.frame.same.trans (.trans .setNode hrec.frame.same))

/-! ## What the ziplist functions do to a node -/

/-- The entries after an insertion behind an entry. -/
theorem insertBehind_spec {left right : List Entry} {e : Entry} (hvalue : value.length < 2 ^ 32)
    (hsmall : 11 + size (insertEntry (left ++ [e]) value hvalue right) < 2 ^ 32) (zl : Bytes)
    (hrep : Ziplist.Represents zl (left ++ e :: right)) :
    ∃ zl', insertBehind pf zl (10 + size left) (cut value) = some zl' ∧
      Ziplist.Represents zl' (insertEntry (left ++ [e]) value hvalue right) := by
  have hsplit : left ++ e :: right = (left ++ [e]) ++ right := by simp
  unfold insertBehind
  rw [cut_eq hvalue, ziplistNext_spec hrep, some_bind]
  by_cases hright : right = []
  · subst hright
    rw [if_pos rfl]
    exact @Edit.run_spec zl _ pf.mem (.push value hvalue .TAIL) hrep trivial hsmall
  · rw [if_neg hright]
    rw [hsplit] at hrep
    exact ziplistInsert_spec pf.mem hvalue hrep hsmall

/-- The entries that a split leaves in the node. -/
def keptPart (es : List Entry) (offset : Int) (after : Bool) : List Entry :=
  deleteRange es (toInt (if after then offset + 1 else 0)) (toUInt (if after then -1 else offset))

/-- The entries that a split puts into the new node. -/
def cutPart (es : List Entry) (offset : Int) (after : Bool) : List Entry :=
  deleteRange es (toInt (if after then 0 else offset)) (toUInt (if after then offset + 1 else -1))

theorem size_deleteRange_first (h : Fits 0 es) (num : Nat) : size (deleteRange es 0 num) ≤ size es := by
  unfold deleteRange
  rcases hpos : position es.length 0 with _ | k
  · exact Nat.le_refl _
  · obtain ⟨-, ⟨-, hk⟩ | ⟨hneg, -⟩⟩ := position_eq_some hpos
    · obtain rfl : k = 0 := by omega
      exact size_deleteEntries_first h num
    · omega

theorem size_deleteRange_last {index : Int} {num : Nat} (hnum : es.length ≤ num) :
    size (deleteRange es index num) ≤ size es := by
  unfold deleteRange
  rcases position es.length index with _ | k
  · exact Nat.le_refl _
  · exact size_deleteEntries_last (Nat.le_trans hnum (Nat.le_add_left _ _))

/-- Neither part is larger than the node. -/
theorem size_parts_le (h : Fits 0 es) (hshort : es.length < 2 ^ 16) (offset : Int) (after : Bool) :
    size (keptPart es offset after) ≤ size es ∧ size (cutPart es offset after) ≤ size es := by
  have hall : es.length ≤ toUInt (-1) := by
    unfold toUInt
    omega
  have hzero : toInt 0 = 0 := toInt_eq (by decide) (by decide)
  unfold keptPart cutPart
  cases after with
  | true =>
      rw [if_pos rfl, if_pos rfl, if_pos rfl, if_pos rfl, hzero]
      exact ⟨size_deleteRange_last hall, size_deleteRange_first h _⟩
  | false =>
      rw [if_neg Bool.false_ne_true, if_neg Bool.false_ne_true, if_neg Bool.false_ne_true,
        if_neg Bool.false_ne_true, hzero]
      exact ⟨size_deleteRange_first h _, size_deleteRange_last hall⟩

theorem length_deleteRange_le (es : List Entry) (index : Int) (num : Nat) :
    (deleteRange es index num).length ≤ es.length := by
  unfold deleteRange
  rcases hpos : position es.length index with _ | k
  · exact Nat.le_refl _
  · have hk := position_lt hpos
    dsimp only
    rw [length_deleteEntries]
    omega

/-- `_quicklistSplitNode` of an open node. -/
theorem gives_splitNode {Q : Bytes × Nat → QuickList → Prop} {offset : Int} {zl : Bytes}
    (h : Woven pf ql (as ++ (p, es) :: bs)) (hzl : (ql.node p).zl = .raw zl)
    (hrep : Ziplist.Represents zl es)
    (hQ : ∀ ql' new, Woven pf ql' (as ++ (p, keptPart es offset after) :: bs) → Same ql ql' →
      Ziplist.Represents new (cutPart es offset after) → Q (new, (cutPart es offset after).length) ql') :
    Gives (quicklistSplitNode pf p offset after) Q ql := by
  have hp : p ∈ ql.nodes := h.toNodes.mem mem_self
  have hshort : es.length < 2 ^ 16 := h.short (p, es) mem_self
  have hsz : (ql.node p).sz = zl.length := by
    rw [hrep.length, (h.holds (p, es) mem_self).sz]
  have hsmall := hrep.small
  obtain ⟨hkeptSize, hcutSize⟩ := size_parts_le hrep.fits hshort offset after
  obtain ⟨kept, hkept, hrepKept⟩ := @ziplistDeleteRange_spec zl es pf.mem
    (toInt (if after then offset + 1 else 0)) (toUInt (if after then -1 else offset)) hrep
    (toInt_bounds _).1 (toInt_bounds _).2 (by unfold keptPart at hkeptSize; omega)
  obtain ⟨new, hnew, hrepNew⟩ := @ziplistDeleteRange_spec zl es pf.mem
    (toInt (if after then 0 else offset)) (toUInt (if after then offset + 1 else -1)) hrep
    (toInt_bounds _).1 (toInt_bounds _).2 (by unfold cutPart at hcutSize; omega)
  obtain ⟨kept', hlenKept, hrepKept'⟩ := ziplistLen_spec hrepKept
  obtain ⟨new', hlenNew, hrepNew'⟩ := ziplistLen_spec hrepNew
  have hkeptLe := length_deleteRange_le es (toInt (if after then offset + 1 else 0))
    (toUInt (if after then -1 else offset))
  have hcutLe := length_deleteRange_le es (toInt (if after then 0 else offset))
    (toUInt (if after then offset + 1 else -1))
  unfold Gives quicklistSplitNode
  rw [yields_bind]
  refine gives_rawAt hp hzl ?_
  rw [yields_bind]
  refine gives_nodeAt hp ?_
  rw [hsz, readAt_whole, yields_bind, yields_orFail]
  dsimp only
  rw [hkept, yields_bind, yields_orFail, hlenKept, yields_bind, yields_orFail]
  dsimp only
  rw [yields_bind]
  refine gives_setZl hp ?_
  rw [yields_bind]
  refine gives_setCount hp ?_
  rw [setNode_setNode, setNode_same, yields_bind]
  refine gives_updateSz hp (by rw [setNode_same]) hrepKept' ?_
  rw [setNode_setNode, setNode_same, hnew, yields_bind, yields_orFail, hlenNew, yields_bind, yields_orFail,
    yields_pure]
  dsimp only
  have hcut : (cutPart es offset after).length % 2 ^ 16 = (cutPart es offset after).length :=
    Nat.mod_eq_of_lt (Nat.lt_of_le_of_lt hcutLe hshort)
  have h₁ : Woven pf (ql.setNode p ⟨.raw kept', 11 + size (keptPart es offset after),
      ((((keptPart es offset after).length : Nat) : Int) % 2 ^ 16).toNat, (ql.node p).recompress⟩)
      (as ++ (p, keptPart es offset after) :: bs) :=
    h.setNode (nodeHolds_raw hrepKept') (by dsimp only; unfold keptPart; omega)
      (Nat.lt_of_le_of_lt hkeptLe hshort)
  have hdone := hQ _ new' h₁ .setNode hrepNew'
  rw [← hcut] at hdone
  exact hdone

/-- The entries of the new node with the value. -/
def grownPart (es : List Entry) (offset : Int) (after : Bool) (value : Bytes)
    (h : value.length < 2 ^ 32) : List Entry :=
  if after then insertEntry [] value h (cutPart es offset after)
  else insertEntry (cutPart es offset after) value h []

theorem size_insertEntry_le (left right : List Entry) (s : Bytes) (h : s.length < 2 ^ 32) :
    62 * size (insertEntry left s h right) ≤
      62 * (size left + (10 + max 8 s.length)) + (63 * size right + 248) := by
  have hraw := rawLen_entryOf_le (decide (254 ≤ lastLen 0 left)) h
  have hfollow := @size_follow_le right (insertedWidth (entryOf (decide (254 ≤ lastLen 0 left)) s h).rawLen)
  unfold insertEntry
  rw [size_append, size_cons]
  omega

theorem length_insertEntry (left right : List Entry) (s : Bytes) (h : s.length < 2 ^ 32) :
    (insertEntry left s h right).length = left.length + right.length + 1 := by
  rw [← length_contents, contents_insertEntry, List.length_append, List.length_cons, length_contents,
    length_contents]
  omega

theorem insertEntry_ne_nil (left right : List Entry) (s : Bytes) (h : s.length < 2 ^ 32) :
    insertEntry left s h right ≠ [] := by
  intro hnil
  have hlen := length_insertEntry left right s h
  rw [hnil] at hlen
  cases hlen

theorem contents_grownPart (es : List Entry) (offset : Int) (after : Bool) (h : value.length < 2 ^ 32) :
    contents (grownPart es offset after value h) =
      if after then value :: contents (cutPart es offset after)
      else contents (cutPart es offset after) ++ [value] := by
  unfold grownPart
  split
  · rw [contents_insertEntry]
    rfl
  · rw [contents_insertEntry]
    rfl

theorem length_grownPart (es : List Entry) (offset : Int) (after : Bool) (h : value.length < 2 ^ 32) :
    (grownPart es offset after value h).length = (cutPart es offset after).length + 1 := by
  rw [← length_contents, contents_grownPart]
  split <;> simp

theorem grownPart_ne_nil (es : List Entry) (offset : Int) (after : Bool)
    (h : value.length < 2 ^ 32) : grownPart es offset after value h ≠ [] := by
  unfold grownPart
  split
  · exact insertEntry_ne_nil _ _ _ _
  · exact insertEntry_ne_nil _ _ _ _

/-- The node with the value is not much larger than both. -/
theorem size_grownPart_le (hfits : Fits 0 es) (hshort : es.length < 2 ^ 16) (offset : Int)
    (after : Bool) (h : value.length < 2 ^ 32) :
    62 * size (grownPart es offset after value h) ≤ 1364 + (63 * size es + 62 * value.length) := by
  have hcut := (size_parts_le hfits hshort offset after).2
  unfold grownPart
  split
  · have hle := size_insertEntry_le [] (cutPart es offset after) value h
    generalize size (insertEntry [] value h (cutPart es offset after)) = n at hle ⊢
    generalize size (cutPart es offset after) = m at hle hcut
    rw [size_nil] at hle
    omega
  · have hle := size_insertEntry_le (cutPart es offset after) [] value h
    generalize size (insertEntry (cutPart es offset after) value h []) = n at hle ⊢
    generalize size (cutPart es offset after) = m at hle hcut
    rw [size_nil] at hle
    omega

/-- The nodes of a split list, with the one that stays in the middle. -/
def splitBefore (as : Shape) (new : Nat × List Entry) (after : Bool) : Shape :=
  if after then as else as ++ [new]

def splitBehind (bs : Shape) (new : Nat × List Entry) (after : Bool) : Shape :=
  if after then new :: bs else bs

/-- A function that does not fail, where others may. -/
theorem Gives.lift {E : Fault → Prop} {α : Type} {m : M α} {Q : α → QuickList → Prop} (h : Gives m Q ql) :
    yields E m Q ql := yields_weaken h fun _ hno => hno.elim

/-- `_quicklistInsert` where the node is split. -/
theorem yields_insertSplitting {E : Fault → Prop} {Q : Unit → QuickList → Prop} {offset : Int}
    (h : Woven pf ql (as ++ (p, es) :: bs)) (hvalue : value.length < 2 ^ 32)
    (hsmall : 11 + size (grownPart es offset after value hvalue) < 2 ^ 32)
    (hgrown : (grownPart es offset after value hvalue).length < 2 ^ 16)
    (hmany : as.length + bs.length + 2 < 2 ^ 32)
    (hQ : ∀ ql', Woven pf ql' (splitBefore as (ql.fresh, grownPart es offset after value hvalue) after ++
        (p, keptPart es offset after) ::
          splitBehind bs (ql.fresh, grownPart es offset after value hvalue) after) →
      ql'.count = ql.count → ql'.fill = ql.fill → yields E (quicklistMergeNodes pf p) Q ql') :
    yields E (insertSplitting pf p offset value after) Q ql := by
  unfold insertSplitting
  rw [yields_bind]
  refine Gives.lift (gives_decompressForUse h.toNodes mem_self fun ql₁ hopen _ => ?_)
  have h₁ := h.framed hopen.nodes hopen.frame
  obtain ⟨zl, hzl, hrep⟩ := hopen.raw
  rw [yields_bind]
  refine Gives.lift (gives_splitNode h₁ hzl hrep fun ql₂ new h₂ hsame₂ hnew => ?_)
  have hshort : es.length < 2 ^ 16 := h.short (p, es) mem_self
  have hcutLen : (cutPart es offset after).length ≤ es.length := length_deleteRange_le _ _ _
  have hgrownLen := @length_grownPart value es offset after hvalue
  obtain ⟨zl', hpush, hrep'⟩ : ∃ zl', ziplistPush pf.mem new (cut value)
      (if after then .HEAD else .TAIL) = some zl' ∧
        Ziplist.Represents zl' (grownPart es offset after value hvalue) := by
    rw [cut_eq hvalue]
    unfold grownPart at hsmall ⊢
    cases after with
    | true => exact @Edit.run_spec new _ pf.mem (.push value hvalue .HEAD) hnew trivial hsmall
    | false => exact @Edit.run_spec new _ pf.mem (.push value hvalue .TAIL) hnew trivial hsmall
  dsimp only
  rw [hpush, yields_bind, yields_orFail, ziplistBlobLen_spec hrep', yields_bind, yields_orFail]
  have hsame := hopen.frame.same.trans hsame₂
  have hlen₂ := h₂.len
  rw [List.length_append, List.length_cons] at hlen₂
  have hnodes₂ : ql₂.nodes.length = as.length + (bs.length + 1) := by
    rw [h₂.nodes, List.length_map, List.length_append, List.length_cons]
  obtain ⟨node, hnode⟩ : ∃ node : QuicklistNode, node = { quicklistCreateNode zl' with
    count := ((cutPart es offset after).length + 1) % 2 ^ 16,
    sz := 11 + size (grownPart es offset after value hvalue) } := ⟨_, rfl⟩
  have hholds : NodeHolds pf node (grownPart es offset after value hvalue) := by
    rw [hnode]
    exact nodeHolds_raw hrep'
  rw [← hnode, yields_bind]
  rw [← hsame.fresh] at hQ
  refine Gives.lift (gives_insertNode h₂.toNodes (by omega) (by omega) hholds rfl fun ql₃ hlinked => ?_)
  have hnewCount : node.count = (grownPart es offset after value hvalue).length := by
    rw [hnode, hgrownLen]
    exact Nat.mod_eq_of_lt (by omega)
  refine hQ ql₃ ?_ (hlinked.count.trans hsame.count) (hlinked.fill.trans hsame.fill)
  unfold splitBefore splitBehind
  cases after with
  | true =>
      rw [if_pos rfl] at hlinked
      rw [if_pos rfl, if_pos rfl]
      have hcs : ∀ cs : Shape, as ++ (p, keptPart es offset true) :: cs =
          (as ++ [(p, keptPart es offset true)]) ++ cs := fun cs => by simp
      rw [hcs] at hlinked h₂ ⊢
      refine h₂.linked hlinked hnewCount hgrown ?_
      rw [List.length_append, List.length_singleton]
      omega
  | false =>
      rw [if_neg Bool.false_ne_true] at hlinked
      rw [if_neg Bool.false_ne_true, if_neg Bool.false_ne_true, List.append_assoc,
        List.singleton_append]
      refine h₂.linked hlinked hnewCount hgrown ?_
      rw [List.length_cons]
      omega

/-! ## What a split leaves -/

theorem contents_deleteRange {k num : Nat} {index : Int} (h : position es.length index = some k) :
    contents (deleteRange es index num) = (contents es).take k ++ (contents es).drop (k + num) := by
  unfold deleteRange
  rw [h]
  exact contents_deleteEntries k num

theorem contents_deleteRange_all {k num : Nat} {index : Int} (h : position es.length index = some k)
    (hnum : es.length ≤ num) : contents (deleteRange es index num) = (contents es).take k := by
  rw [contents_deleteRange h, List.drop_eq_nil_of_le (by rw [length_contents]; omega), List.append_nil]

theorem deleteRange_none {num : Nat} {index : Int} (h : position es.length index = none) :
    deleteRange es index num = es := by
  unfold deleteRange
  rw [h]

namespace Place

variable (pl : Place)

theorem contents_entries :
    contents pl.entries = contents pl.left ++ pl.entry.bytes :: contents pl.right := by
  unfold entries
  rw [contents_append, contents_cons]

/-- A split at an offset that was counted from the head of the node. -/
theorem contents_parts (hshort : pl.entries.length < 2 ^ 16) (after : Bool) :
    contents (keptPart pl.entries (pl.found true).offset after) =
      (if after then contents pl.left ++ [pl.entry.bytes] else pl.entry.bytes :: contents pl.right) ∧
    contents (cutPart pl.entries (pl.found true).offset after) =
      if after then contents pl.right else contents pl.left := by
  have hlen := pl.length_entries
  have hcontents := pl.contents_entries
  have hleft := @length_contents pl.left
  have hall : toUInt (-1) = 2 ^ 32 - 1 := by decide
  have hzero : toInt 0 = 0 := by decide
  have hfirst : position pl.entries.length 0 = some 0 := by
    unfold position
    rw [if_pos (Int.le_refl 0), if_pos (by omega)]
    rfl
  have hoffset : (pl.found true).offset = pl.left.length := rfl
  unfold keptPart cutPart
  rw [hoffset]
  cases after with
  | true =>
      simp only [if_true, hall, hzero]
      rw [show ((pl.left.length : Int) + 1) = ((pl.left.length + 1 : Nat) : Int) by omega,
        toInt_eq (by omega) (by omega), toUInt_eq (by omega)]
      constructor
      · have htake : (contents pl.entries).take (pl.left.length + 1) =
            contents pl.left ++ [pl.entry.bytes] := by
          rw [hcontents, ← hleft, List.take_length_add_append, List.take_succ_cons, List.take_zero]
        rcases hpos : position pl.entries.length ((pl.left.length + 1 : Nat) : Int) with _ | k
        · have hout := position_eq_none hpos
          rw [deleteRange_none hpos, ← htake, List.take_of_length_le (by rw [length_contents]; omega)]
        · obtain ⟨-, ⟨-, hk⟩ | ⟨hneg, -⟩⟩ := position_eq_some hpos
          · rw [contents_deleteRange_all hpos (by omega), ← htake]
            congr 1
            omega
          · omega
      · rw [contents_deleteRange hfirst, List.take_zero, List.nil_append, Nat.zero_add, hcontents, ← hleft,
          List.drop_length_add_append, List.drop_succ_cons, List.drop_zero]
  | false =>
      simp only [Bool.false_eq_true, if_false, hall, hzero]
      rw [toInt_eq (by omega) (by omega), toUInt_eq (by omega)]
      have hpos : position pl.entries.length (pl.left.length : Int) = some pl.left.length := by
        unfold position
        rw [if_pos (by omega), if_pos (by omega), Int.toNat_natCast]
      constructor
      · rw [contents_deleteRange hfirst, List.take_zero, List.nil_append, Nat.zero_add, hcontents, ← hleft,
          List.drop_left]
      · rw [contents_deleteRange_all hpos (by omega), hcontents, ← hleft, List.take_left]

end Place

/-! ## Which branch is taken -/

/-- The test whether a ziplist may take a value of this length. -/
def Takes (fill : Int) (es : List Entry) (n : Nat) : Prop :=
  quicklistNodeAllowInsert (some ⟨.raw [], 11 + size es, es.length, false⟩) fill n = true

instance (fill : Int) (es : List Entry) (n : Nat) : Decidable (Takes fill es n) :=
  inferInstanceAs (Decidable (_ = true))

theorem takes_eq {fill : Int} {n : Nat} (hsz : node.sz = 11 + size es) (hcount : node.count = es.length) :
    quicklistNodeAllowInsert (some node) fill n = decide (Takes fill es n) := by
  rw [Bool.eq_iff_iff, decide_eq_true_iff]
  unfold Takes quicklistNodeAllowInsert
  dsimp only
  rw [hsz, hcount]

/-- What takes a value is small, if the sum does not wrap around. -/
theorem Takes.size_le {fill : Int} {n : Nat} (h : Takes fill es n) (hes : 11 + size es ≤ 2 ^ 30)
    (hn : n ≤ 2 ^ 29) : 11 + size es + n ≤ 65536 := by
  unfold Takes quicklistNodeAllowInsert at h
  dsimp only at h
  generalize hover : (if n < 254 then 1 else 5) + (if n < 64 then 1 else if n < 16384 then 2 else 5) = lens at h
  have hle : lens ≤ 10 := by
    rw [← hover]
    split <;> split <;> (try split) <;> omega
  rw [toUInt_eq (by omega)] at h
  split at h
  · next hmeets =>
      have := meetsOptimizationRequirement_le hmeets
      omega
  · split at h
    · cases h
    · next hsmall =>
        unfold SIZE_SAFETY_LIMIT at hsmall
        omega

theorem yields_nodeAt {E : Fault → Prop} {Q : QuicklistNode → QuickList → Prop} (hp : p ∈ ql.nodes) :
    yields E (nodeAt p) Q ql ↔ Q (ql.node p) ql := by
  unfold nodeAt
  rw [yields_bind, yields_get, yields_ite, if_pos hp, yields_pure]

theorem yields_nextOf {E : Fault → Prop} {Q : Option Nat → QuickList → Prop} (hp : p ∈ ql.nodes) :
    yields E (nextOf (some p)) Q ql ↔ Q (ql.next p) ql := by
  unfold nextOf
  rw [yields_bind, yields_nodeAt hp, yields_bind, yields_get, yields_pure]

theorem yields_prevOf {E : Fault → Prop} {Q : Option Nat → QuickList → Prop} (hp : p ∈ ql.nodes) :
    yields E (prevOf (some p)) Q ql ↔ Q (ql.prev p) ql := by
  unfold prevOf
  rw [yields_bind, yields_nodeAt hp, yields_bind, yields_get, yields_pure]

theorem yields_nodeOpt {E : Fault → Prop} {Q : Option QuicklistNode → QuickList → Prop} {o : Option Nat}
    (hmem : ∀ q, o = some q → q ∈ ql.nodes) : yields E (nodeOpt o) Q ql ↔ Q (o.map ql.node) ql := by
  cases o with
  | none => exact Iff.rfl
  | some q =>
      unfold nodeOpt
      rw [yields_bind, yields_nodeAt (hmem q rfl), yields_pure]
      rfl

/-- What `_quicklistInsert` does where an entry was found, by the branch it takes.  The offset is never
that behind the last entry, so a value goes into the node in front, or into one of its own, but not
into the node behind. -/
def placing (pf : Platform) (fill : Int) (pl : Place) (forward : Bool) (value : Bytes) (after : Bool) : M Unit :=
  if Takes fill pl.entries value.length then
    insertInto pf pl.node fun zl =>
      if after then insertBehind pf zl (10 + size pl.left) (cut value)
      else ziplistInsert pf.mem zl (10 + size pl.left) (cut value)
  else if after = false ∧ forward = true ∧ pl.left = [] then
    match pl.before.getLast? with
    | some (q, gs) =>
        if Takes fill gs value.length then
          insertInto pf q fun zl => ziplistPush pf.mem zl (cut value) .TAIL
        else do
          let new ← nodeWith pf value .HEAD
          let _ ← quicklistInsertNode pf (some pl.node) { new with count := 1 } after
    | none => insertSplitting pf pl.node (pl.found forward).offset value after
  else insertSplitting pf pl.node (pl.found forward).offset value after

theorem yields_quicklistInsert {E : Fault → Prop} {Q : Unit → QuickList → Prop} {pl : Place}
    (h : Woven pf ql pl.shape) (forward : Bool) :
    yields E (quicklistInsert pf (pl.found forward) value after) Q ql ↔
      yields E (do placing pf ql.fill pl forward value after; addCount 1) Q ql := by
  have hmem := pl.mem_shape
  have hp : pl.node ∈ ql.nodes := h.toNodes.mem hmem
  have hlen := pl.length_entries
  have htest := @takes_eq pl.entries (ql.node pl.node) ql.fill value.length (h.holds _ hmem).sz
    (h.counted _ hmem)
  have hcount : (ql.node pl.node).count = pl.entries.length := h.counted _ hmem
  have htail : (pl.found forward).offset ≠ ((ql.node pl.node).count : Int) := by
    rw [hcount]
    unfold Place.found
    dsimp only
    split <;> omega
  have hhead : (pl.found forward).offset = 0 ↔ forward = true ∧ pl.left = [] := by
    unfold Place.found
    dsimp only
    cases forward with
    | true =>
        rw [if_pos rfl, and_iff_right rfl, ← List.length_eq_zero_iff]
        omega
    | false =>
        rw [if_neg Bool.false_ne_true]
        exact iff_of_false (by omega) fun hno => Bool.false_ne_true hno.1
  have hnode : (pl.found forward).node = some pl.node := rfl
  have hzi : (pl.found forward).zi = some (10 + size pl.left) := rfl
  have hshape : pl.shape = pl.before ++ (pl.node, pl.entries) :: pl.after := rfl
  have hnodes := h.toNodes
  rw [hshape] at hnodes
  have hnext : ∀ q, ql.next pl.node = some q → q ∈ ql.nodes := by
    intro q hq
    rw [hnodes.next] at hq
    obtain ⟨n, hn, rfl⟩ := List.mem_map.mp (List.mem_of_head? hq)
    exact hnodes.mem (List.mem_append_right _ (List.mem_cons_of_mem _ hn))
  have hprev : ∀ q, ql.prev pl.node = some q → q ∈ ql.nodes := by
    intro q hq
    rw [hnodes.prev] at hq
    obtain ⟨n, hn, rfl⟩ := Option.map_eq_some_iff.mp hq
    exact hnodes.mem (List.mem_append_left _ (List.mem_of_getLast? hn))
  unfold quicklistInsert
  rw [yields_bind, yields_get, hnode]
  dsimp only
  rw [yields_bind, yields_nodeAt hp, htest, decide_eq_false htail, Bool.and_false, yields_bind,
    yields_nextOf hp, yields_bind, yields_nodeOpt hnext, yields_bind, yields_prevOf hp, yields_bind,
    yields_nodeOpt hprev]
  unfold placing
  by_cases htakes : Takes ql.fill pl.entries value.length
  · rw [decide_eq_true htakes, if_pos htakes, hzi]
    unfold deref
    cases after with
    | true => simp
    | false => simp
  rw [decide_eq_false htakes, if_neg htakes]
  by_cases hcase : after = false ∧ forward = true ∧ pl.left = []
  · have hzero := hhead.mpr hcase.2
    rw [if_pos hcase, hcase.1, decide_eq_true hzero, hnodes.prev]
    rcases hlast : pl.before.getLast? with _ | ⟨q, gs⟩
    · simp
    · have hq : (q, gs) ∈ pl.shape := List.mem_append_left _ (List.mem_of_getLast? hlast)
      have htest' := @takes_eq gs (ql.node q) ql.fill value.length (h.holds _ hq).sz (h.counted _ hq)
      rw [Option.map_some, Option.map_some, htest']
      dsimp only
      by_cases htakes' : Takes ql.fill gs value.length
      · rw [decide_eq_true htakes', if_pos htakes']
        simp [deref]
      · rw [decide_eq_false htakes', if_neg htakes']
        simp
  · have hno : (!after && decide ((pl.found forward).offset = 0)) = false := by
      rw [Bool.eq_false_iff]
      intro hboth
      obtain ⟨hafter, hzero⟩ := Bool.and_eq_true_iff.mp hboth
      exact hcase ⟨by simpa using hafter, hhead.mp (of_decide_eq_true hzero)⟩
    rw [if_neg hcase, hno]
    simp

/-! ## Where the value is placed -/

/-- The list with a value beside an entry. -/
def Place.withValue (pl : Place) (value : Bytes) (after : Bool) : List Bytes :=
  elements pl.before ++ ((contents pl.left ++ ((if after then [pl.entry.bytes, value]
    else [value, pl.entry.bytes]) ++ contents pl.right)) ++ elements pl.after)

theorem Place.elements_shape (pl : Place) :
    elements pl.shape = elements pl.before ++ ((contents pl.left ++ ([pl.entry.bytes] ++ contents pl.right)) ++
      elements pl.after) := by
  unfold shape
  rw [elements_middle, pl.contents_entries, List.singleton_append]

/-- Beside the entry is at its index, or behind it. -/
theorem Place.withValue_eq (pl : Place) (value : Bytes) (after : Bool) :
    pl.withValue value after =
      (elements pl.shape).insertIdx (if after then pl.index + 1 else pl.index) value := by
  have hfront : (elements pl.before ++ contents pl.left).length = pl.index := by
    rw [List.length_append, length_elements, length_contents]
    rfl
  have hmiddle : ∀ cs : List Bytes, elements pl.before ++ ((contents pl.left ++ cs) ++ elements pl.after) =
      (elements pl.before ++ contents pl.left) ++ (cs ++ elements pl.after) := fun cs => by
    simp only [List.append_assoc]
  rw [pl.elements_shape]
  unfold withValue
  rw [hmiddle, hmiddle, ← hfront]
  generalize elements pl.before ++ contents pl.left = front
  cases after with
  | true =>
      have hinsert := @insertIdx_middle Bytes (contents pl.right ++ elements pl.after) value
        (front ++ [pl.entry.bytes])
      rw [List.length_append, List.length_singleton] at hinsert
      simpa using hinsert.symm
  | false =>
      have hinsert := @insertIdx_middle Bytes ([pl.entry.bytes] ++ contents pl.right ++ elements pl.after) value
        front
      simpa using hinsert.symm

theorem Place.length_withValue (pl : Place) (value : Bytes) (after : Bool) :
    (pl.withValue value after).length = total pl.shape + 1 := by
  have hindex : pl.index + 1 ≤ (elements pl.shape).length := by
    rw [length_elements, pl.total_shape]
    omega
  rw [pl.withValue_eq, List.length_insertIdx_of_le_length (by split <;> omega), length_elements]

/-- No number that an insertion changes is near its limit: strings have at most 2^29 bytes, ziplists
at most 2^30, and no counter overflows. -/
structure Modest (ns : Shape) (value : Bytes) : Prop where
  value : value.length ≤ 2 ^ 29
  sizes : ∀ n ∈ ns, 11 + size n.2 ≤ 2 ^ 30
  counts : ∀ n ∈ ns, n.2.length + 1 < 2 ^ 16
  nodes : ns.length + 1 < 2 ^ 32
  total : total ns + 1 < 2 ^ 64

/-- The nodes hold these strings, none of them is empty, and the number of entries is as it was. -/
def Holding (pf : Platform) (l : List Bytes) (ql ql' : QuickList) : Prop :=
  ql'.count = ql.count ∧ ql'.fill = ql.fill ∧
    ∃ ns, Woven pf ql' ns ∧ (∀ n ∈ ns, n.2 ≠ []) ∧ elements ns = l

theorem forall_middle {R : Nat × List Entry → Prop} {m : Nat × List Entry}
    (h : ∀ n ∈ as ++ bs, R n) (hm : R m) : ∀ n ∈ as ++ m :: bs, R n := fun n hmem => by
  rcases mem_middle hmem with rfl | hin
  · exact hm
  · exact h n hin

section places

variable {pl : Place}

/-- Into the node of the entry. -/
theorem gives_inside (h : Woven pf ql pl.shape) (hfull : ∀ n ∈ pl.shape, n.2 ≠ [])
    (hm : Modest pl.shape value) (htakes : Takes ql.fill pl.entries value.length) :
    Gives (insertInto pf pl.node fun zl =>
      if after then insertBehind pf zl (10 + size pl.left) (cut value)
      else ziplistInsert pf.mem zl (10 + size pl.left) (cut value))
      (fun _ => Holding pf (pl.withValue value after) ql) ql := by
  have hlen := pl.length_entries
  have hcount := hm.counts _ pl.mem_shape
  have hle := htakes.size_le (hm.sizes _ pl.mem_shape) hm.value
  have hvalue : value.length < 2 ^ 32 := by omega
  have hsize : size pl.entries = size pl.left + (pl.entry.rawLen + size pl.right) := by
    unfold Place.entries
    rw [size_append, size_cons]
  have hothers : ∀ n ∈ pl.before ++ pl.after, n.2 ≠ [] := fun n hn => hfull n (mem_around hn)
  cases after with
  | true =>
      refine gives_insertInto (insertEntry (pl.left ++ [pl.entry]) value hvalue pl.right) h
        (fun zl hrep => insertBehind_spec hvalue ?_ zl hrep) ?_ ?_ fun ql' h' hsame => ?_
      · have hgrown := size_insertEntry_le (pl.left ++ [pl.entry]) pl.right value hvalue
        rw [size_append, size_cons, size_nil] at hgrown
        omega
      · rw [length_insertEntry, List.length_append, List.length_singleton]
        omega
      · rw [length_insertEntry, List.length_append, List.length_singleton]
        dsimp only at hcount
        omega
      · refine ⟨hsame.count, hsame.fill, _, h', forall_middle hothers (insertEntry_ne_nil _ _ _ _), ?_⟩
        rw [elements_middle, contents_insertEntry, contents_append]
        unfold Place.withValue
        simp
  | false =>
      refine gives_insertInto (insertEntry pl.left value hvalue (pl.entry :: pl.right)) h
        (fun zl hrep => ?_) ?_ ?_ fun ql' h' hsame => ?_
      · rw [if_neg Bool.false_ne_true, cut_eq hvalue]
        refine ziplistInsert_spec pf.mem hvalue hrep ?_
        have hgrown := size_insertEntry_le pl.left (pl.entry :: pl.right) value hvalue
        rw [size_cons] at hgrown
        omega
      · rw [length_insertEntry, List.length_cons]
        omega
      · rw [length_insertEntry, List.length_cons]
        dsimp only at hcount
        omega
      · refine ⟨hsame.count, hsame.fill, _, h', forall_middle hothers (insertEntry_ne_nil _ _ _ _), ?_⟩
        rw [elements_middle, contents_insertEntry]
        unfold Place.withValue
        simp

/-- Behind the last entry of the node in front. -/
theorem gives_inFront {q : Nat} {gs : List Entry} {before : Shape} (h : Woven pf ql pl.shape)
    (hfull : ∀ n ∈ pl.shape, n.2 ≠ []) (hm : Modest pl.shape value)
    (hbefore : pl.before = before ++ [(q, gs)]) (hleft : pl.left = [])
    (htakes : Takes ql.fill gs value.length) :
    Gives (insertInto pf q fun zl => ziplistPush pf.mem zl (cut value) .TAIL)
      (fun _ => Holding pf (pl.withValue value false) ql) ql := by
  have hshape : pl.shape = before ++ (q, gs) :: (pl.node, pl.entries) :: pl.after := by
    unfold Place.shape
    rw [hbefore, List.append_assoc, List.singleton_append]
  have hmem : (q, gs) ∈ pl.shape := by
    rw [hshape]
    exact mem_self
  have hcount := hm.counts _ hmem
  have hle := htakes.size_le (hm.sizes _ hmem) hm.value
  have hvalue : value.length < 2 ^ 32 := by omega
  rw [hshape] at h hfull
  have hothers : ∀ n ∈ before ++ (pl.node, pl.entries) :: pl.after, n.2 ≠ [] :=
    fun n hn => hfull n (mem_around hn)
  refine gives_insertInto (insertEntry gs value hvalue []) h (fun zl hrep => ?_) ?_ ?_
    fun ql' h' hsame => ?_
  · rw [cut_eq hvalue]
    refine @Edit.run_spec zl _ pf.mem (.push value hvalue .TAIL) hrep trivial ?_
    show 11 + size (insertEntry gs value hvalue []) < 2 ^ 32
    have hgrown := size_insertEntry_le gs [] value hvalue
    rw [size_nil] at hgrown
    omega
  · rw [length_insertEntry]
    rfl
  · rw [length_insertEntry, List.length_nil]
    dsimp only at hcount
    omega
  · refine ⟨hsame.count, hsame.fill, _, h', forall_middle hothers (insertEntry_ne_nil _ _ _ _), ?_⟩
    rw [elements_middle, elements_cons, contents_insertEntry, pl.contents_entries, hleft]
    unfold Place.withValue
    rw [hbefore, hleft, elements_append, elements_cons]
    simp

/-- Into a node of its own. -/
theorem gives_alone (h : Woven pf ql pl.shape) (hfull : ∀ n ∈ pl.shape, n.2 ≠ [])
    (hm : Modest pl.shape value) (hleft : pl.left = []) :
    Gives (do
      let new ← nodeWith pf value .HEAD
      let _ ← quicklistInsertNode pf (some pl.node) { new with count := 1 } false)
      (fun _ => Holding pf (pl.withValue value false) ql) ql := by
  have hvalue : value.length < 2 ^ 32 := by
    have := hm.value
    omega
  have hsmall : 11 + size (insertEntry [] value hvalue []) < 2 ^ 32 := by
    have := hm.value
    have hgrown := size_insertEntry_le [] [] value hvalue
    rw [size_nil] at hgrown
    omega
  obtain ⟨zl, hpush, hrep⟩ : ∃ zl, ziplistPush pf.mem ziplistNew value .HEAD = some zl ∧
      Ziplist.Represents zl (insertEntry [] value hvalue []) :=
    @Edit.run_spec ziplistNew [] pf.mem (.push value hvalue .HEAD) ziplistNew_represents trivial hsmall
  have hlen := h.len
  have hmany := hm.nodes
  have hnodes : ql.nodes.length = pl.shape.length := by rw [h.nodes, List.length_map]
  have hshape : pl.shape = pl.before ++ (pl.node, pl.entries) :: pl.after := rfl
  unfold Gives
  rw [yields_bind]
  unfold nodeWith
  rw [cut_eq hvalue, yields_bind, hpush, yields_orFail, yields_bind, ziplistBlobLen_spec hrep,
    yields_orFail, yields_pure, yields_bind]
  refine gives_insertNode h.toNodes ?_ (by omega) (nodeHolds_raw hrep) rfl fun ql' hlinked => ?_
  · rw [hlen, hshape, List.length_append, List.length_cons]
    omega
  · rw [if_neg Bool.false_ne_true] at hlinked
    rw [hshape, List.length_append, List.length_cons] at hmany
    rw [yields_pure]
    refine ⟨hlinked.count, hlinked.fill, _,
      Woven.linked h hlinked (length_insertEntry [] [] value hvalue).symm ?_ ?_,
      forall_middle hfull (insertEntry_ne_nil _ _ _ _), ?_⟩
    · rw [length_insertEntry]
      decide
    · rw [List.length_cons]
      omega
    · rw [elements_middle, elements_cons, contents_insertEntry, pl.contents_entries, hleft]
      unfold Place.withValue
      rw [hleft]
      simp

end places

/-! ## A node is split -/

section split

variable {pl : Place}

/-- The sizes of the two parts. -/
theorem split_sizes (h : Woven pf ql pl.shape) (hm : Modest pl.shape value)
    (hvalue : value.length < 2 ^ 32) (offset : Int) : Addable (keptPart pl.entries offset after) ∧
      Addable (grownPart pl.entries offset after value hvalue) ∧
      11 + size (grownPart pl.entries offset after value hvalue) < 2 ^ 32 ∧
      (grownPart pl.entries offset after value hvalue).length < 2 ^ 16 := by
  obtain ⟨zl, -, -, hrep⟩ := h.holds _ pl.mem_shape
  have hsize := hm.sizes _ pl.mem_shape
  have hcount := hm.counts _ pl.mem_shape
  have hlong := hm.value
  have hshort := h.short _ pl.mem_shape
  have hkept := (size_parts_le hrep.fits hshort offset after).1
  have hgrown := size_grownPart_le hrep.fits hshort offset after hvalue
  have hlen := @length_grownPart value pl.entries offset after hvalue
  have hcut : (cutPart pl.entries offset after).length ≤ pl.entries.length :=
    length_deleteRange_le _ _ _
  unfold Addable
  dsimp only at hsize hcount hkept hgrown
  refine ⟨by omega, by omega, by omega, by omega⟩

/-- The node that stays has the entry. -/
theorem keptPart_ne_nil (hshort : pl.entries.length < 2 ^ 16) :
    keptPart pl.entries (pl.found true).offset after ≠ [] := by
  intro hnil
  have hkept := (pl.contents_parts hshort after).1
  rw [hnil] at hkept
  cases after with
  | true => exact List.append_ne_nil_of_right_ne_nil _ (List.cons_ne_nil _ _) hkept.symm
  | false => cases hkept

/-- What a property of all nodes says about the nodes of a split list. -/
theorem forall_split {R : Nat × List Entry → Prop} {new kept : Nat × List Entry}
    (h : ∀ n ∈ as ++ bs, R n) (hnew : R new) (hkept : R kept) :
    ∀ n ∈ splitBefore as new after ++ kept :: splitBehind bs new after, R n := by
  unfold splitBefore splitBehind
  cases after with
  | true =>
      rw [if_pos rfl, if_pos rfl]
      rw [show as ++ kept :: new :: bs = (as ++ [kept]) ++ new :: bs by simp]
      refine forall_middle ?_ hnew
      rw [List.append_assoc, List.singleton_append]
      exact forall_middle h hkept
  | false =>
      rw [if_neg Bool.false_ne_true, if_neg Bool.false_ne_true, List.append_assoc,
        List.singleton_append]
      exact forall_middle (forall_middle h hkept) hnew

/-- The strings of a split list, at an offset that was counted from the head of the node. -/
theorem elements_split (hshort : pl.entries.length < 2 ^ 16) (hvalue : value.length < 2 ^ 32)
    (new : Nat) :
    elements (splitBefore pl.before
        (new, grownPart pl.entries (pl.found true).offset after value hvalue) after ++
      (pl.node, keptPart pl.entries (pl.found true).offset after) ::
        splitBehind pl.after (new, grownPart pl.entries (pl.found true).offset after value hvalue)
          after) = pl.withValue value after := by
  obtain ⟨hkept, hcut⟩ := pl.contents_parts hshort after
  have hgrown := @contents_grownPart value pl.entries (pl.found true).offset after hvalue
  rw [hcut] at hgrown
  rw [elements_middle, hkept]
  unfold splitBefore splitBehind Place.withValue
  cases after with
  | true => simp [elements_cons, hgrown]
  | false => simp [elements_append, elements_cons, hgrown]

/-- Where the node is split. -/
theorem gives_split (h : Woven pf ql pl.shape) (hfull : ∀ n ∈ pl.shape, n.2 ≠ [])
    (hm : Modest pl.shape value) :
    Gives (insertSplitting pf pl.node (pl.found true).offset value after)
      (fun _ => Holding pf (pl.withValue value after) ql) ql := by
  have hvalue : value.length < 2 ^ 32 := by
    have := hm.value
    omega
  obtain ⟨hkept, hgrown, hsmall, hlen⟩ :=
    @split_sizes pf ql value after pl h hm hvalue (pl.found true).offset
  have hshort := h.short _ pl.mem_shape
  have hmany := hm.nodes
  unfold Place.shape at hmany
  rw [List.length_append, List.length_cons] at hmany
  have hothers : ∀ n ∈ pl.before ++ pl.after, n.2 ≠ [] ∧ Addable n.2 := fun n hn => by
    have hin : n ∈ pl.shape := mem_around hn
    have hsize := hm.sizes n hin
    refine ⟨hfull n hin, ?_⟩
    unfold Addable
    omega
  refine yields_insertSplitting h hvalue hsmall hlen (by omega) fun ql₁ h₁ hcount hfill => ?_
  have hall := @forall_split pl.before pl.after after (fun n => n.2 ≠ [] ∧ Addable n.2)
    (ql.fresh, grownPart pl.entries (pl.found true).offset after value hvalue)
    (pl.node, keptPart pl.entries (pl.found true).offset after) hothers
    ⟨grownPart_ne_nil _ _ _ hvalue, hgrown⟩ ⟨keptPart_ne_nil hshort, hkept⟩
  have hstrings := @elements_split value after pl hshort hvalue ql.fresh
  generalize splitBefore pl.before
    (ql.fresh, grownPart pl.entries (pl.found true).offset after value hvalue) after = as at *
  generalize splitBehind pl.after
    (ql.fresh, grownPart pl.entries (pl.found true).offset after value hvalue) after = bs at *
  generalize keptPart pl.entries (pl.found true).offset after = es at *
  refine gives_quicklistMergeNodes h₁ ⟨fun n hn => ?_, (hall _ mem_self).2, fun n hn => ?_,
    fun n hn => ?_, fun hnil => absurd hnil (hall _ mem_self).1⟩ fun ql' ns' h' hsame hshape => ?_
  · exact (hall n (List.mem_append_left _ (List.mem_reverse.mp (List.mem_of_mem_take hn)))).2
  · exact (hall n (List.mem_append_right _
      (List.mem_cons_of_mem _ (List.mem_of_mem_take hn)))).symm
  · exact (hall n (List.mem_append_left _ (List.mem_of_getLast? hn))).1
  refine ⟨hsame.count.trans hcount, hsame.fill.trans hfill, ns', h', ?_, ?_⟩
  · intro n hn
    have hne := @forall_mergedAround es ql₁.fill (fun es => es ≠ []) (as.map Prod.snd).reverse
      (bs.map Prod.snd) (fun _ _ _ hfs _ => joined_ne_nil hfs)
      (fun fs hfs => ?_) (hall _ mem_self).1 (fun fs hfs => ?_)
    · rw [← hshape] at hne
      exact hne n.2 (List.mem_map_of_mem hn)
    · obtain ⟨m, hin, rfl⟩ := List.mem_map.mp (List.mem_reverse.mp hfs)
      exact (hall m (List.mem_append_left _ hin)).1
    · obtain ⟨m, hin, rfl⟩ := List.mem_map.mp hfs
      exact (hall m (List.mem_append_right _ (List.mem_cons_of_mem _ hin))).1
  · rw [← hstrings, elements_eq_strings, hshape, strings_mergedAround, List.reverse_reverse,
      elements_middle, elements_eq_strings, elements_eq_strings]

end split

/-! ## The insertion -/

section insertion

variable {pl : Place} {forward : Bool}

/-- An offset counted from the tail of the node is right where the node has room. -/
def Placed (fill : Int) (pl : Place) (forward : Bool) (value : Bytes) : Prop :=
  forward = true ∨ Takes fill pl.entries value.length

theorem gives_placing (h : Woven pf ql pl.shape) (hfull : ∀ n ∈ pl.shape, n.2 ≠ [])
    (hm : Modest pl.shape value) (hplaced : Placed ql.fill pl forward value) :
    Gives (placing pf ql.fill pl forward value after)
      (fun _ => Holding pf (pl.withValue value after) ql) ql := by
  unfold placing
  by_cases htakes : Takes ql.fill pl.entries value.length
  · rw [if_pos htakes]
    exact gives_inside h hfull hm htakes
  obtain rfl : forward = true := hplaced.resolve_right htakes
  rw [if_neg htakes]
  by_cases hfront : after = false ∧ True ∧ pl.left = []
  · obtain ⟨rfl, -, hleft⟩ := hfront
    rw [if_pos ⟨rfl, rfl, hleft⟩]
    rcases List.eq_nil_or_concat' pl.before with hnil | ⟨before, ⟨q, gs⟩, hbefore⟩
    · rw [hnil]
      exact gives_split h hfull hm
    · rw [hbefore, List.getLast?_concat]
      dsimp only
      by_cases htakes' : Takes ql.fill gs value.length
      · rw [if_pos htakes']
        exact gives_inFront h hfull hm hbefore hleft htakes'
      · rw [if_neg htakes']
        exact gives_alone h hfull hm hleft
  · rw [if_neg fun hcase => hfront ⟨hcase.1, trivial, hcase.2.2⟩]
    exact gives_split h hfull hm

end insertion

/-- **Insertion.**  `quicklistInsertBefore` and `quicklistInsertAfter` at an entry that was looked up
with an index from the head, or with any index where its node has room, put the value beside that
entry, whatever nodes are split and merged. -/
theorem quicklistInsert_inserts (pf : Platform) {idx : Int} {k : Nat} (value : Bytes) (after : Bool)
    (h : Stores pf ql ns) (hlow : -(2 ^ 63) ≤ idx) (hpos : position (total ns) idx = some k)
    (hm : Modest ns value) (hplaced : ∀ pl : Place, pl.shape = ns → pl.index = k →
      0 ≤ idx ∨ Takes ql.fill pl.entries value.length) :
    Gives (insertAtIndex pf idx value after) (fun _ ql' => ∃ ns', Stores pf ql' ns' ∧
      elements ns' = (elements ns).insertIdx (if after then k + 1 else k) value) ql := by
  unfold Gives insertAtIndex
  rw [yields_bind]
  refine gives_quicklistIndex h hlow hpos fun pl ql₁ hshape hindex hopen _ => ?_
  have h₁ := h.loose.woven.framed hopen.nodes hopen.frame
  have hfull : ∀ n ∈ pl.shape, n.2 ≠ [] := hshape ▸ h.full
  have hcount₁ : ql₁.count = total ns := hopen.frame.count.trans h.count
  have hfill₁ : ql₁.fill = ql.fill := hopen.frame.fill
  rw [← hshape] at h₁ hm
  dsimp only
  rw [yields_quicklistInsert h₁, yields_bind]
  refine (gives_placing h₁ hfull hm ?_).mono fun _ ql₂ hdone => ?_
  · rw [hfill₁]
    exact (hplaced pl hshape hindex).imp_left decide_eq_true
  obtain ⟨hcount, -, ns', h', hfull', hstrings⟩ := hdone
  have htotal : total ns' = total ns + 1 := by
    rw [← length_elements, hstrings, pl.length_withValue, hshape]
  have hbound := hm.total
  rw [hshape] at hbound
  have hnew : toULong ((ql₂.count : Int) + 1) = total ns' := by
    rw [hcount, hcount₁, htotal, ← Nat.cast_succ, toULong_eq (by omega)]
  refine ⟨ns', ?_, ?_⟩
  · show Stores pf { ql₂ with count := toULong ((ql₂.count : Int) + 1) } ns'
    rw [hnew]
    exact ⟨⟨h'.nodes, h'.nodup, h'.old, h'.holds⟩, h'.counted, rfl, h'.len, hfull', h'.short,
      by omega, h'.linkable⟩
  · rw [hstrings, pl.withValue_eq, hshape, hindex]

theorem sixLetters_modest : Modest (shapeOf [letters 4, letters 2]) [9] where
  value := by decide
  sizes := by decide
  counts := by decide
  nodes := by decide
  total := by decide

/-- Behind the second entry of a full node, which is split. -/
theorem quicklistInsert_inserts_second : ¬ Takes sixLetters.fill (letters 4) 1 ∧
    Gives (insertAtIndex plainPlatform 1 [9] true) (fun _ ql' => ∃ ns', Stores plainPlatform ql' ns' ∧
      elements ns' = (elements (shapeOf [letters 4, letters 2])).insertIdx 2 [9]) sixLetters := by
  refine ⟨by decide, ?_⟩
  have h := @quicklistInsert_inserts sixLetters (shapeOf [letters 4, letters 2]) plainPlatform 1 1
    [9] true (sixLetters_stores _) (by decide) (by decide) sixLetters_modest
    fun _ _ _ => .inl (by decide)
  rwa [if_pos rfl] at h

end Quicklist

end RedisCore
