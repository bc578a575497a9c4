/-
# `RedisCore.Quicklist.Contents` — what a quicklist holds

`Nodes pf ql ns` says that the nodes of a list are those of `ns`, in this order, and that each
holds these entries: its ziplist, which may be compressed, represents them, its size is that of
the ziplist and its count is right.  What the list holds is one node after the other.

A function that changes a node is followed on the node alone; opening and closing nodes changes
nothing here.  All of it holds whatever is marked.
-/
import Mathlib.Data.List.Nodup
import RedisCore.Quicklist.Ends
import RedisCore.Ziplist.Runs

namespace RedisCore

namespace Quicklist

open CInt Marked Ziplist

variable {pf : Platform} {ql ql' ql'' : QuickList} {p q : Nat} {α : Type}

/-- A function does not fail, and what it leaves satisfies `Q`. -/
def Gives (m : M α) (Q : α → QuickList → Prop) (ql : QuickList) : Prop :=
  yields (fun _ => False) m Q ql

theorem Gives.mono {m : M α} {Q Q' : α → QuickList → Prop} (h : Gives m Q ql)
    (hQ : ∀ a ql', Q a ql' → Q' a ql') : Gives m Q' ql := yields_mono h hQ

theorem Gives.exists {m : M α} {Q : α → QuickList → Prop} (h : Gives m Q ql) : ∃ a ql', Q a ql' :=
  exists_of_yields h

/-! ## Nodes with their entries -/

/-- A node holds these entries, and knows the size of its ziplist. -/
def NodeHolds (pf : Platform) (node : QuicklistNode) (es : List Entry) : Prop :=
  ∃ zl, Holds pf node zl ∧ zl.length = node.sz ∧ Ziplist.Represents zl es

/-- The nodes of a list with their entries. -/
abbrev Shape := List (Nat × List Entry)

/-- The strings of a list. -/
def elements (ns : Shape) : List Bytes := ns.flatMap fun n => contents n.2

/-- The number of entries. -/
def total (ns : Shape) : Nat := (ns.map fun n => n.2.length).sum

/-- The list has these nodes with these entries. -/
structure Nodes (pf : Platform) (ql : QuickList) (ns : Shape) : Prop where
  nodes : ql.nodes = ns.map Prod.fst
  nodup : ql.nodes.Nodup
  old : ∀ p ∈ ql.nodes, p < ql.fresh
  holds : ∀ n ∈ ns, NodeHolds pf (ql.node n.1) n.2

/-- The nodes know how many entries they have. -/
def Counted (ql : QuickList) (ns : Shape) : Prop :=
  ∀ n ∈ ns, (ql.node n.1).count = n.2.length

/-- The fields of the list and the counts of the nodes are as before. -/
structure Frame (ql ql' : QuickList) : Prop where
  counts : ∀ q, (ql'.node q).count = (ql.node q).count
  fresh : ql'.fresh = ql.fresh
  count : ql'.count = ql.count
  len : ql'.len = ql.len
  fill : ql'.fill = ql.fill
  compress : ql'.compress = ql.compress

theorem Frame.refl (ql : QuickList) : Frame ql ql := ⟨fun _ => rfl, rfl, rfl, rfl, rfl, rfl⟩

theorem Frame.trans (h : Frame ql ql') (h' : Frame ql' ql'') : Frame ql ql'' where
  counts q := (h'.counts q).trans (h.counts q)
  fresh := h'.fresh.trans h.fresh
  count := h'.count.trans h.count
  len := h'.len.trans h.len
  fill := h'.fill.trans h.fill
  compress := h'.compress.trans h.compress

theorem Frame.setNode {node : QuicklistNode} (h : node.count = (ql.node p).count) :
    Frame ql (ql.setNode p node) := by
  refine ⟨fun q => ?_, rfl, rfl, rfl, rfl, rfl⟩
  by_cases hq : q = p
  · rw [hq, setNode_same, h]
  · rw [setNode_other hq]

theorem Recoded.frame (h : Recoded pf ql ql') : Frame ql ql' :=
  ⟨fun q => (h.node q).count, h.fresh, h.count, h.len, h.fill, h.compress⟩

theorem Counted.frame {ns : Shape} (h : Counted ql ns) (hf : Frame ql ql') : Counted ql' ns :=
  fun n hn => (hf.counts n.1).trans (h n hn)

@[simp] theorem elements_nil : elements [] = [] := rfl

@[simp] theorem elements_cons (n : Nat × List Entry) (ns : Shape) :
    elements (n :: ns) = contents n.2 ++ elements ns := List.flatMap_cons

@[simp] theorem elements_append (ns ms : Shape) :
    elements (ns ++ ms) = elements ns ++ elements ms := List.flatMap_append

@[simp] theorem total_nil : total [] = 0 := rfl

@[simp] theorem total_cons (n : Nat × List Entry) (ns : Shape) :
    total (n :: ns) = n.2.length + total ns := by
  simp [total]

@[simp] theorem total_append (ns ms : Shape) : total (ns ++ ms) = total ns + total ms := by
  simp [total]

/-- So many entries as short nodes have. -/
theorem total_lt {ns : Shape} (hshort : ∀ n ∈ ns, n.2.length < 2 ^ 16) (hmany : ns.length < 2 ^ 32) :
    total ns < 2 ^ 48 := by
  have hle : total ns ≤ 65535 * ns.length := by
    clear hmany
    induction ns with
    | nil => exact Nat.le_refl 0
    | cons n ns ih =>
        have hn := hshort n List.mem_cons_self
        have hns := ih fun m hm => hshort m (List.mem_cons_of_mem _ hm)
        rw [total_cons, List.length_cons]
        omega
  omega

theorem length_elements (ns : Shape) : (elements ns).length = total ns := by
  induction ns with
  | nil => rfl
  | cons n ns ih => rw [elements_cons, List.length_append, length_contents, ih, total_cons]

section nodes

variable {ns as bs : Shape} {es es' : List Entry} {node : QuicklistNode}

theorem NodeHolds.whole (h : NodeHolds pf node es) : Whole pf node := by
  obtain ⟨zl, hzl, hlen, -⟩ := h
  exact ⟨zl, hzl, hlen⟩

theorem NodeHolds.sz (h : NodeHolds pf node es) : node.sz = 11 + size es := by
  obtain ⟨zl, -, hlen, hrep⟩ := h
  exact hlen.symm.trans hrep.length

theorem NodeHolds.small (h : NodeHolds pf node es) : 11 + size es < 2 ^ 32 := by
  obtain ⟨zl, -, -, hrep⟩ := h
  exact hrep.small

theorem NodeHolds.recoded {node' : QuicklistNode} (h : NodeHolds pf node es)
    (hr : RecodedNode pf node node') : NodeHolds pf node' es := by
  obtain ⟨zl, hzl, hlen, hrep⟩ := h
  exact ⟨zl, hr.holds zl hzl hlen, hlen.trans hr.sz.symm, hrep⟩

/-- A raw node. -/
theorem nodeHolds_raw {zl : Bytes} {count : Nat} {flag : Bool} (h : Ziplist.Represents zl es) :
    NodeHolds pf ⟨.raw zl, 11 + size es, count, flag⟩ es := ⟨zl, rfl, h.length, h⟩

/-- What a node stands for is one ziplist. -/
theorem Holds.unique {zl zl' : Bytes} (h : Holds pf node zl) (h' : Holds pf node zl') :
    zl = zl' := by
  unfold Holds at h h'
  rcases hzl : node.zl with zl₀ | c
  · rw [hzl] at h h'
    exact h.symm.trans h'
  · rw [hzl] at h h'
    have hinv := pf.inverse h.1
    rw [h.2, ← h'.2, pf.inverse h'.1] at hinv
    exact (Option.some.inj hinv).symm

theorem NodeHolds.contents_eq (h : NodeHolds pf node es) (h' : NodeHolds pf node es') :
    contents es = contents es' := by
  obtain ⟨zl, hzl, -, hrep⟩ := h
  obtain ⟨zl', hzl', -, hrep'⟩ := h'
  have hsame := hzl.unique hzl'
  rw [← hsame] at hrep'
  exact Option.some.inj ((decoded_spec hrep).symm.trans (decoded_spec hrep'))

theorem Nodes.mem (h : Nodes pf ql ns) {n : Nat × List Entry} (hn : n ∈ ns) : n.1 ∈ ql.nodes := by
  rw [h.nodes]
  exact List.mem_map_of_mem hn

theorem Nodes.ready (h : Nodes pf ql ns) : Ready pf ql where
  nodup := h.nodup
  sound p hp := by
    rw [h.nodes] at hp
    obtain ⟨n, hn, rfl⟩ := List.mem_map.mp hp
    exact (h.holds n hn).whole.sound

theorem Nodes.whole (h : Nodes pf ql ns) : ∀ p ∈ ql.nodes, Whole pf (ql.node p) := by
  intro p hp
  rw [h.nodes] at hp
  obtain ⟨n, hn, rfl⟩ := List.mem_map.mp hp
  exact (h.holds n hn).whole

theorem Nodes.measured (h : Nodes pf ql ns) : ∀ p ∈ ql.nodes, Measured pf (ql.node p) :=
  fun p hp => (h.whole p hp).measured

theorem Nodes.recoded (h : Nodes pf ql ns) (hr : Recoded pf ql ql') : Nodes pf ql' ns where
  nodes := hr.nodes.trans h.nodes
  nodup := hr.nodes ▸ h.nodup
  old p hp := hr.fresh ▸ h.old p (hr.nodes ▸ hp)
  holds n hn := (h.holds n hn).recoded (hr.node n.1)

/-- Two lists of nodes that one list has hold the same. -/
theorem Nodes.elements_eq {ms : Shape} (h : Nodes pf ql ns) (h' : Nodes pf ql ms) :
    elements ns = elements ms := by
  have hsame : ns.map Prod.fst = ms.map Prod.fst := h.nodes.symm.trans h'.nodes
  have hold : ∀ n ∈ ns, NodeHolds pf (ql.node n.1) n.2 := h.holds
  have hold' : ∀ n ∈ ms, NodeHolds pf (ql.node n.1) n.2 := h'.holds
  clear h h'
  induction ns generalizing ms with
  | nil =>
      have := (List.map_eq_nil_iff.mp hsame.symm)
      rw [this]
  | cons n ns ih =>
      rcases ms with _ | ⟨m, ms⟩
      · cases hsame
      · obtain ⟨hfst, hrest⟩ := List.cons.inj hsame
        have hn := hold n List.mem_cons_self
        have hm := hold' m List.mem_cons_self
        rw [hfst] at hn
        rw [elements_cons, elements_cons, hn.contents_eq hm,
          ih hrest (fun n hn => hold n (List.mem_cons_of_mem _ hn)) fun n hn =>
            hold' n (List.mem_cons_of_mem _ hn)]

/-- The other nodes are at other addresses. -/
theorem Nodes.other (h : Nodes pf ql (as ++ (p, es) :: bs)) {n : Nat × List Entry}
    (hn : n ∈ as ++ bs) : n.1 ≠ p := by
  intro heq
  have hnodup := h.nodup
  rw [h.nodes, List.map_append, List.map_cons] at hnodup
  have hout := (List.nodup_cons.mp (List.nodup_middle.mp hnodup)).1
  rw [← List.map_append] at hout
  have hin : n.1 ∈ (as ++ bs).map Prod.fst := List.mem_map_of_mem hn
  exact hout (by rwa [heq] at hin)

/-- A node among the others. -/
theorem mem_middle {n m : Nat × List Entry} (h : n ∈ as ++ m :: bs) : n = m ∨ n ∈ as ++ bs := by
  rcases List.mem_append.mp h with hin | hin
  · exact .inr (List.mem_append_left _ hin)
  · exact (List.mem_cons.mp hin).imp_right (List.mem_append_right _)

theorem mem_around {n m : Nat × List Entry} (h : n ∈ as ++ bs) : n ∈ as ++ m :: bs := by
  rcases List.mem_append.mp h with hin | hin
  · exact List.mem_append_left _ hin
  · exact List.mem_append_right _ (List.mem_cons_of_mem _ hin)

theorem mem_self {m : Nat × List Entry} : m ∈ as ++ m :: bs :=
  List.mem_append_right _ List.mem_cons_self

/-- Another node at an address. -/
theorem Nodes.setNode (h : Nodes pf ql (as ++ (p, es) :: bs)) (hn : NodeHolds pf node es') :
    Nodes pf (ql.setNode p node) (as ++ (p, es') :: bs) where
  nodes := by
    show ql.nodes = _
    rw [h.nodes, List.map_append, List.map_append]
    rfl
  nodup := h.nodup
  old := h.old
  holds n hmem := by
    rcases mem_middle hmem with rfl | hin
    · rw [setNode_same]
      exact hn
    · rw [setNode_other (h.other hin)]
      exact h.holds n (mem_around hin)

theorem Counted.setNode (hc : Counted ql (as ++ (p, es) :: bs)) (h : Nodes pf ql (as ++ (p, es) :: bs))
    (hn : node.count = es'.length) : Counted (ql.setNode p node) (as ++ (p, es') :: bs) := by
  intro n hmem
  rcases mem_middle hmem with rfl | hin
  · rw [setNode_same]
    exact hn
  · rw [setNode_other (h.other hin)]
    exact hc n (mem_around hin)

theorem setNode_setNode (node node' : QuicklistNode) :
    (ql.setNode p node).setNode p node' = ql.setNode p node' := by
  unfold QuickList.setNode
  congr 1
  funext q
  dsimp only
  split <;> rfl

/-- Without one of the nodes. -/
theorem Nodes.erase (h : Nodes pf ql (as ++ (p, es) :: bs)) (node : QuicklistNode) :
    Nodes pf { ql.setNode p node with nodes := ql.nodes.erase p } (as ++ bs) := by
  have hnodup := h.nodup
  have hnodes : ql.nodes.erase p = (as ++ bs).map Prod.fst := by
    rw [h.nodes, List.map_append, List.map_cons] at hnodup ⊢
    have hout := (List.nodup_cons.mp (List.nodup_middle.mp hnodup)).1
    rw [List.erase_append_right _ fun hin => hout (List.mem_append_left _ hin), List.erase_cons_head,
      List.map_append]
  refine ⟨hnodes, hnodup.erase p, fun q hq => h.old q (List.mem_of_mem_erase hq), fun n hn => ?_⟩
  show NodeHolds pf ((ql.setNode p node).node n.1) n.2
  rw [setNode_other (h.other hn)]
  exact h.holds n (mem_around hn)

theorem Counted.erase (hc : Counted ql (as ++ (p, es) :: bs)) (h : Nodes pf ql (as ++ (p, es) :: bs))
    (node : QuicklistNode) (nodes : List Nat) :
    Counted { ql.setNode p node with nodes := nodes } (as ++ bs) := by
  intro n hn
  show ((ql.setNode p node).node n.1).count = _
  rw [setNode_other (h.other hn)]
  exact hc n (mem_around hn)

end nodes

/-! ## Reading and changing a node -/

section edits

variable {Q : Unit → QuickList → Prop} {ns as bs : Shape} {es : List Entry} {zl : Bytes}

theorem gives_nodeAt {Q : QuicklistNode → QuickList → Prop} (hp : p ∈ ql.nodes)
    (h : Q (ql.node p) ql) : Gives (nodeAt p) Q ql := by
  unfold Gives nodeAt
  rw [yields_bind, yields_get, yields_ite, if_pos hp]
  exact h

theorem gives_rawAt {Q : Bytes → QuickList → Prop} (hp : p ∈ ql.nodes)
    (hzl : (ql.node p).zl = .raw zl) (h : Q zl ql) : Gives (rawAt p) Q ql := by
  unfold Gives rawAt
  rw [yields_bind]
  refine gives_nodeAt hp ?_
  rw [hzl]
  exact h

theorem gives_setZl (hp : p ∈ ql.nodes)
    (h : Q () (ql.setNode p { ql.node p with zl := .raw zl })) : Gives (setZl p zl) Q ql := by
  unfold Gives setZl
  rw [yields_bind]
  exact gives_nodeAt hp h

theorem gives_setCount {n : Int} (hp : p ∈ ql.nodes)
    (h : Q () (ql.setNode p { ql.node p with count := (n % 2 ^ 16).toNat })) :
    Gives (setCount p n) Q ql := by
  unfold Gives setCount
  rw [yields_bind]
  exact gives_nodeAt hp h

theorem gives_updateSz (hp : p ∈ ql.nodes) (hzl : (ql.node p).zl = .raw zl)
    (hrep : Ziplist.Represents zl es) (h : Q () (ql.setNode p { ql.node p with sz := 11 + size es })) :
    Gives (quicklistNodeUpdateSz p) Q ql := by
  unfold Gives quicklistNodeUpdateSz
  rw [yields_bind]
  refine gives_rawAt hp hzl ?_
  rw [ziplistBlobLen_spec hrep, yields_bind, yields_orFail, yields_bind]
  exact gives_nodeAt hp h

theorem gives_nextOf {Q : Option Nat → QuickList → Prop} (hp : p ∈ ql.nodes)
    (h : Q (ql.next p) ql) : Gives (nextOf (some p)) Q ql := by
  unfold Gives nextOf
  rw [yields_bind]
  exact gives_nodeAt hp h

theorem gives_prevOf {Q : Option Nat → QuickList → Prop} (hp : p ∈ ql.nodes)
    (h : Q (ql.prev p) ql) : Gives (prevOf (some p)) Q ql := by
  unfold Gives prevOf
  rw [yields_bind]
  exact gives_nodeAt hp h

/-! ## Opening and closing nodes -/

/-- The ziplist of a raw node. -/
theorem NodeHolds.of_raw {node : QuicklistNode} (h : NodeHolds pf node es) (hraw : node.zl.IsRaw) :
    ∃ zl, node.zl = .raw zl ∧ zl.length = node.sz ∧ Ziplist.Represents zl es := by
  obtain ⟨zl, hzl, hlen, hrep⟩ := h
  rcases hz : node.zl with zl' | c
  · unfold Holds at hzl
    rw [hz] at hzl
    exact ⟨zl, by rw [show zl' = zl from hzl], hlen, hrep⟩
  · rw [hz] at hraw
    exact hraw.elim

/-- A node that was opened. -/
structure Reopened (pf : Platform) (ns : Shape) (p : Nat) (es : List Entry) (ql ql' : QuickList) :
    Prop where
  nodes : Nodes pf ql' ns
  frame : Frame ql ql'
  raw : ∃ zl, (ql'.node p).zl = .raw zl ∧ Ziplist.Represents zl es

theorem Nodes.reopened (h : Nodes pf ql ns) (hn : (p, es) ∈ ns) (hraw : ql.Raw p) :
    Reopened pf ns p es ql ql := by
  obtain ⟨zl, hzl, -, hrep⟩ := (h.holds _ hn).of_raw hraw
  exact ⟨h, .refl ql, ⟨zl, hzl, hrep⟩⟩

theorem gives_decompressNode (h : Nodes pf ql ns) (hn : (p, es) ∈ ns)
    (hQ : ∀ ql', Reopened pf ns p es ql ql' → Recoded pf ql ql' → Q () ql') :
    Gives (quicklistDecompressNode pf (some p)) Q ql := by
  have hp := h.mem hn
  refine yields_of_wp (wp_quicklistDecompressNode hp h.ready fun ql' hopen hraw _ => ?_)
  have hrec := hopen.toRecoded
  have h' := (h.recoded hrec).reopened hn hraw
  exact hQ ql' ⟨h'.nodes, hrec.frame, h'.raw⟩ hrec

theorem gives_decompressForUse (h : Nodes pf ql ns) (hn : (p, es) ∈ ns)
    (hQ : ∀ ql', Reopened pf ns p es ql ql' → (∀ q, ql.Raw q → ql'.Raw q) → Q () ql') :
    Gives (quicklistDecompressNodeForUse pf p) Q ql := by
  have hp := h.mem hn
  unfold Gives quicklistDecompressNodeForUse
  rw [yields_bind]
  refine gives_nodeAt hp ?_
  rcases hzl : (ql.node p).zl with zl | c
  · refine hQ ql (h.reopened hn ?_) fun _ => id
    unfold QuickList.Raw
    rw [hzl]
    trivial
  · dsimp only
    rw [yields_bind]
    refine yields_of_wp (wp_quicklistDecompressNode hp h.ready fun ql₁ hopen hraw hkeep => ?_)
    have hrec := hopen.toRecoded
    rw [yields_bind]
    refine gives_nodeAt (hrec.nodes ▸ hp) ?_
    obtain ⟨as, bs, rfl⟩ := List.append_of_mem hn
    have h₁ := h.recoded hrec
    obtain ⟨zl, hzl₁, hlen, hrep⟩ := (h₁.holds _ hn).of_raw hraw
    refine hQ _ ⟨h₁.setNode ⟨zl, ?_, hlen, hrep⟩, hrec.frame.trans (.setNode rfl), ⟨zl, ?_, hrep⟩⟩
      fun q hq => ?_
    · unfold Holds
      dsimp only
      rw [hzl₁]
    · rw [setNode_same]
      exact hzl₁
    · unfold QuickList.Raw
      by_cases hqp : q = p
      · rw [hqp, setNode_same]
        exact hraw
      · rw [setNode_other hqp]
        exact hkeep q hq

theorem gives_compressTo {node : Option Nat} (h : Nodes pf ql ns)
    (hnode : ∀ p, node = some p → p ∈ ql.nodes) (hlen : ql.len ≤ ql.nodes.length + 1)
    (hQ : ∀ ql', Recoded pf ql ql' → Nodes pf ql' ns → Swept ql ql' → Q () ql') :
    Gives (quicklistCompressTo pf node) Q ql :=
  yields_of_wp (wp_quicklistCompressTo h.ready hnode hlen (.inr h.measured) fun ql' hrec hswept =>
    hQ ql' hrec (h.recoded hrec) hswept)

theorem gives_recompress (h : Nodes pf ql ns) (hp : p ∈ ql.nodes)
    (hQ : ∀ ql', Recoded pf ql ql' → Nodes pf ql' ns → Q () ql') : Gives (recompress pf p) Q ql := by
  unfold Gives recompress
  rw [yields_bind, yields_get, yields_bind, yields_mark]
  exact yields_of_wp (wp_quicklistCompressNode (fun q hq => Option.some.inj hq ▸ hp) (.inr h.measured)
    fun ql' hrec _ => hQ ql' hrec (h.recoded hrec))

theorem gives_quicklistCompress (h : Nodes pf ql ns) (hp : p ∈ ql.nodes)
    (hlen : ql.len ≤ ql.nodes.length + 1)
    (hQ : ∀ ql', Recoded pf ql ql' → Nodes pf ql' ns →
      ((ql.node p).recompress = false → Swept ql ql') → Q () ql') :
    Gives (quicklistCompress pf p) Q ql := by
  unfold Gives quicklistCompress
  rw [yields_bind]
  refine gives_nodeAt hp ?_
  rw [yields_ite]
  split
  · next hflag =>
      refine gives_recompress h hp fun ql' hrec hnodes => hQ ql' hrec hnodes fun hoff => ?_
      rw [hflag] at hoff
      cases hoff
  · exact gives_compressTo h (fun q hq => Option.some.inj hq ▸ hp) hlen fun ql' hrec hnodes hswept =>
      hQ ql' hrec hnodes fun _ => hswept

theorem gives_recompressOnly (h : Nodes pf ql ns) (hp : p ∈ ql.nodes)
    (hQ : ∀ ql', Recoded pf ql ql' → Nodes pf ql' ns → Q () ql') :
    Gives (quicklistRecompressOnly pf p) Q ql := by
  unfold Gives quicklistRecompressOnly
  rw [yields_bind]
  refine gives_nodeAt hp ?_
  rw [yields_ite]
  split
  · exact gives_recompress h hp hQ
  · exact hQ ql (.refl ql) h

end edits

/-! ## Lists that are used at their ends alone -/

/-- Both ends are open, everything is in a list that is too short, and no node waits to be
closed. -/
structure Settled (pf : Platform) (ql : QuickList) : Prop extends Kempt pf ql where
  unflagged : ∀ p ∈ ql.nodes, (ql.node p).recompress = false

/-- Only the counters may be others. -/
theorem Settled.congr (h : Settled pf ql) (hnodes : ql'.nodes = ql.nodes) (hnode : ql'.node = ql.node)
    (hfresh : ql'.fresh = ql.fresh) (hcompress : ql'.compress = ql.compress) : Settled pf ql' := by
  refine ⟨h.toKempt.congr hnodes hnode hfresh hcompress, ?_⟩
  rw [hnodes, hnode]
  exact h.unflagged

/-- Another node at an address. -/
theorem Settled.setNode {node : QuicklistNode} (h : Settled pf ql) (hraw : ql.Raw p → node.zl.IsRaw)
    (hsound : Sound pf (ql.node p) → Sound pf node)
    (hflag : (ql.node p).recompress = false → node.recompress = false) :
    Settled pf (ql.setNode p node) := by
  refine ⟨h.toKempt.kept (.setNode hraw hsound), fun q hq => ?_⟩
  by_cases hqp : q = p
  · rw [hqp, setNode_same]
    exact hflag (h.unflagged p (hqp ▸ hq))
  · rw [setNode_other hqp]
    exact h.unflagged q hq

/-! ## Linking and unlinking nodes -/

section links

variable {Q : Unit → QuickList → Prop} {ns as bs : Shape} {es es' : List Entry} {zl : Bytes}
  {node : QuicklistNode}

/-- What unlinking a node leaves. -/
structure Unlinked (pf : Platform) (ql ql' : QuickList) (p : Nat) (ns : Shape) : Prop where
  nodes : Nodes pf ql' ns
  counted : Counted ql' ns
  count : ql'.count = toULong (ql.count - (ql.node p).count)
  len : ql'.len = toUInt ((ql.len : Int) - 1)
  fresh : ql'.fresh = ql.fresh
  fill : ql'.fill = ql.fill
  compress : ql'.compress = ql.compress
  settled : Settled pf ql → ql.len = ql.nodes.length → ql.nodes.length < 2 ^ 32 → Settled pf ql'

theorem gives_quicklistDelNode (hp : p ∈ ql.nodes)
    (h : Nodes pf { ql with nodes := ql.nodes.erase p } ns)
    (hc : Counted { ql with nodes := ql.nodes.erase p } ns) (hlen : ql.len ≤ ns.length + 1)
    (hQ : ∀ ql', Unlinked pf ql ql' p ns → Q () ql') : Gives (quicklistDelNode pf p) Q ql := by
  unfold Gives quicklistDelNode
  rw [yields_bind]
  refine gives_nodeAt hp ?_
  rw [yields_bind, yields_modify, yields_bind]
  refine gives_compressTo h (fun q hq => by cases hq) ?_ fun ql₁ hrec h₁ hswept => ?_
  · rw [h.nodes, List.length_map]
    exact hlen
  · unfold Quicklist.addCount
    rw [yields_bind, yields_modify, yields_modify]
    refine hQ _ ⟨⟨h₁.nodes, h₁.nodup, h₁.old, h₁.holds⟩,
      fun n hn => (hrec.node n.1).count.trans (hc n hn), ?_, ?_, hrec.fresh, hrec.fill,
      hrec.compress, fun hs hlen₀ hsmall => ?_⟩
    · show toULong (ql₁.count + -((ql.node p).count : Int)) = _
      rw [hrec.count]
      rfl
    · show toUInt ((ql₁.len : Int) - 1) = _
      rw [hrec.len]
    · have hkempt := Tidy.erased ⟨hs.toKempt, hlen₀, hsmall⟩ hrec hswept
      refine ⟨hkempt.congr rfl rfl rfl rfl, fun q hq => (hrec.node q).flag (hs.unflagged q ?_)⟩
      exact List.mem_of_mem_erase (hrec.nodes ▸ hq)

/-- What linking a new node leaves. -/
structure Linked (pf : Platform) (ql ql' : QuickList) (new : QuicklistNode) (ns : Shape) : Prop where
  nodes : Nodes pf ql' ns
  counts : ∀ q, q ≠ ql.fresh → (ql'.node q).count = (ql.node q).count
  newCount : (ql'.node ql.fresh).count = new.count
  count : ql'.count = ql.count
  len : ql'.len = toUInt (ql.len + 1 : Nat)
  fresh : ql'.fresh = ql.fresh + 1
  fill : ql'.fill = ql.fill
  compress : ql'.compress = ql.compress
  settled : Settled pf ql → new.zl.IsRaw → new.recompress = false → ql.len ≤ ql.nodes.length →
    Settled pf ql'

/-- The list with a new node linked. -/
theorem Settled.linked {nodes : List Nat} (h : Settled pf ql)
    (hperm : nodes.Perm (ql.fresh :: ql.nodes)) (hraw : node.zl.IsRaw) (hflag : node.recompress = false)
    (hhead : ∀ q, nodes.head? = some q → q = ql.fresh ∨ ql.head = some q)
    (htail : ∀ q, nodes.getLast? = some q → q = ql.fresh ∨ ql.tail = some q) :
    Settled pf (linkNode ql nodes node) := by
  refine ⟨h.toKempt.linked hperm hraw hhead htail, fun q hq => ?_⟩
  rcases List.mem_cons.mp (hperm.subset hq) with rfl | hin
  · rw [linkNode_node]
    exact hflag
  · rw [linkNode_other (Nat.ne_of_lt (h.fresh q hin))]
    exact h.unflagged q hin

theorem insertIdx_middle {β : Type} (bs : List β) (x : β) :
    ∀ as : List β, (as ++ bs).insertIdx as.length x = as ++ x :: bs
  | [] => rfl
  | a :: as => by
      rw [List.cons_append, List.length_cons, List.insertIdx_succ_cons, insertIdx_middle bs x as,
        List.cons_append]

theorem insertBeside_middle {as bs : List Nat} {after : Bool} {new : Nat}
    (h : (as ++ p :: bs).Nodup) :
    insertBeside (as ++ p :: bs) p new after =
      if after then as ++ p :: new :: bs else as ++ new :: p :: bs := by
  have hidx : (as ++ p :: bs).idxOf p = as.length := by
    have hout : p ∉ as := fun hin =>
      (List.nodup_cons.mp (List.nodup_middle.mp h)).1 (List.mem_append_left _ hin)
    rw [List.idxOf_append_of_notMem hout, List.idxOf_cons_self, Nat.add_zero]
  unfold insertBeside
  rw [hidx]
  cases after with
  | true =>
      have hmiddle := insertIdx_middle bs new (as ++ [p])
      rw [List.append_assoc, List.append_assoc, List.length_append] at hmiddle
      rw [if_pos rfl, if_pos rfl]
      exact hmiddle
  | false =>
      rw [if_neg Bool.false_ne_true, if_neg Bool.false_ne_true]
      exact insertIdx_middle (p :: bs) new as

/-- A new node among the others. -/
theorem Nodes.linked {nodes : List Nat} (h : Nodes pf ql (as ++ bs)) (hnew : NodeHolds pf node es)
    (hnodes : nodes = (as ++ (ql.fresh, es) :: bs).map Prod.fst) :
    Nodes pf (linkNode ql nodes node) (as ++ (ql.fresh, es) :: bs) := by
  have hout : ql.fresh ∉ ql.nodes := fun hin => absurd (h.old _ hin) (Nat.lt_irrefl _)
  have hne : ∀ n ∈ as ++ bs, n.1 ≠ ql.fresh := fun n hn heq => hout (heq ▸ h.mem hn)
  refine ⟨hnodes, ?_, fun q hq => ?_, fun n hn => ?_⟩
  · show nodes.Nodup
    rw [hnodes, List.map_append, List.map_cons, List.nodup_middle, ← List.map_append, ← h.nodes]
    exact List.nodup_cons.mpr ⟨hout, h.nodup⟩
  · show q < ql.fresh + 1
    have hq : q ∈ nodes := hq
    rw [hnodes] at hq
    obtain ⟨n, hn, rfl⟩ := List.mem_map.mp hq
    rcases mem_middle hn with rfl | hin
    · exact Nat.lt_succ_self _
    · exact Nat.lt_succ_of_lt (h.old _ (h.mem hin))
  · rcases mem_middle hn with rfl | hin
    · show NodeHolds pf (if ql.fresh = ql.fresh then node else ql.node ql.fresh) es
      rw [if_pos rfl]
      exact hnew
    · show NodeHolds pf (if n.1 = ql.fresh then node else ql.node n.1) n.2
      rw [if_neg (hne n hin)]
      exact h.holds n hin

theorem linkNode_counts {nodes : List Nat} :
    (∀ q, q ≠ ql.fresh → ((linkNode ql nodes node).node q).count = (ql.node q).count) ∧
      ((linkNode ql nodes node).node ql.fresh).count = node.count := by
  refine ⟨fun q hq => ?_, ?_⟩
  · show (if q = ql.fresh then node else ql.node q).count = _
    rw [if_neg hq]
  · show (if ql.fresh = ql.fresh then node else ql.node ql.fresh).count = _
    rw [if_pos rfl]

/-- The first node of a list. -/
theorem gives_insertFirstNode {Q : Nat → QuickList → Prop} {after : Bool} (h : Nodes pf ql [])
    (hlen : ql.len = 0) (hnew : NodeHolds pf node es)
    (hQ : ∀ ql', Linked pf ql ql' node [(ql.fresh, es)] → Q ql.fresh ql') :
    Gives (quicklistInsertNode pf none node after) Q ql := by
  have hnodes : ql.nodes = [] := h.nodes
  have hlinked := @Nodes.linked pf ql [] [] es node [ql.fresh] h hnew rfl
  unfold Gives quicklistInsertNode incrLen
  rw [yields_bind, yields_get]
  dsimp only
  rw [yields_ite, if_pos ⟨hlen, hnodes⟩]
  simp only [yields_bind, yields_set, yields_get, yields_mark, yields_modify, yields_pure]
  refine hQ _ ⟨⟨hlinked.nodes, hlinked.nodup, hlinked.old, hlinked.holds⟩, linkNode_counts.1,
    linkNode_counts.2, rfl, rfl, rfl, rfl, rfl, fun hs hraw hflag _ => ?_⟩
  have hs₁ : Settled pf (linkNode ql [ql.fresh] node) := by
    refine hs.linked ?_ hraw hflag ?_ ?_
    · rw [hnodes]
    · exact fun q hq => .inl (Option.some.inj hq).symm
    · exact fun q hq => .inl (Option.some.inj hq).symm
  exact hs₁.congr rfl rfl rfl rfl

/-- A node beside another one. -/
theorem gives_insertNode {Q : Nat → QuickList → Prop} {after : Bool} {ms : Shape}
    (h : Nodes pf ql (as ++ (p, es) :: bs)) (hlen : ql.len ≠ 0) (hlen' : ql.len ≤ ql.nodes.length + 2)
    (hnew : NodeHolds pf node es')
    (hms : ms = if after then as ++ (p, es) :: (ql.fresh, es') :: bs
      else as ++ (ql.fresh, es') :: (p, es) :: bs)
    (hQ : ∀ ql', Linked pf ql ql' node ms → Q ql.fresh ql') :
    Gives (quicklistInsertNode pf (some p) node after) Q ql := by
  have hp : p ∈ ql.nodes := h.mem mem_self
  have hnodes := h.nodes
  have hnodup := h.nodup
  rw [List.map_append, List.map_cons] at hnodes
  rw [hnodes] at hnodup
  have hbeside : insertBeside ql.nodes p ql.fresh after = ms.map Prod.fst := by
    rw [hnodes, insertBeside_middle hnodup, hms]
    cases after <;> simp
  have hlinked : Nodes pf (linkNode ql (insertBeside ql.nodes p ql.fresh after) node) ms := by
    cases after with
    | true =>
        rw [if_pos rfl] at hms
        have hsplit : as ++ (p, es) :: (ql.fresh, es') :: bs =
            (as ++ [(p, es)]) ++ (ql.fresh, es') :: bs := by simp
        rw [hms, hsplit] at hbeside ⊢
        exact Nodes.linked (by simpa using h) hnew hbeside
    | false =>
        rw [if_neg Bool.false_ne_true] at hms
        rw [hms] at hbeside ⊢
        exact Nodes.linked h hnew hbeside
  have hmany : (linkNode ql (insertBeside ql.nodes p ql.fresh after) node).nodes.length =
      ql.nodes.length + 1 := by
    show (insertBeside ql.nodes p ql.fresh after).length = _
    rw [hbeside, hms, h.nodes]
    cases after <;> simp <;> omega
  unfold Gives quicklistInsertNode
  rw [yields_bind, yields_get]
  dsimp only
  rw [yields_bind]
  refine gives_nodeAt hp ?_
  rw [yields_ite, if_neg hlen, yields_bind, yields_set, yields_bind]
  refine gives_quicklistCompress hlinked ?_ ?_ fun ql₁ hrec h₁ hswept => ?_
  · rw [hlinked.nodes, hms]
    cases after <;> simp
  · rw [hmany]
    exact hlen'
  · unfold incrLen
    simp only [yields_bind, yields_get, yields_mark, yields_modify, yields_pure]
    refine hQ _ ⟨⟨h₁.nodes, h₁.nodup, h₁.old, h₁.holds⟩, fun q hq => ?_, ?_, hrec.count, ?_,
      hrec.fresh, hrec.fill, hrec.compress, fun hs hraw hflag hcount => ?_⟩
    · exact ((hrec.node q).count).trans (linkNode_counts.1 q hq)
    · exact ((hrec.node ql.fresh).count).trans linkNode_counts.2
    · show toUInt ((ql₁.len + 1 : Nat) : Int) = _
      rw [hrec.len]
      rfl
    · have hs₀ : Settled pf (linkNode ql (insertBeside ql.nodes p ql.fresh after) node) :=
        hs.linked (insertBeside_perm hp) hraw hflag (fun q => head?_insertIdx)
          fun q => getLast?_insertIdx
      have hold : ((linkNode ql (insertBeside ql.nodes p ql.fresh after) node).node p).recompress =
          false := by
        rw [linkNode_other (Nat.ne_of_lt (hs.fresh p hp))]
        exact hs.unflagged p hp
      have hs₁ : Settled pf ql₁ :=
        ⟨hs₀.toKempt.swept (by rw [hmany]; exact Nat.le_succ_of_le hcount) hrec (hswept hold),
          fun q hq => (hrec.node q).flag (hs₀.unflagged q (hrec.nodes ▸ hq))⟩
      exact hs₁.congr rfl rfl rfl rfl

end links

/-! ## Whole lists -/

/-- The list holds these entries: the counters are right, no node is empty, and the numbers are
in the range of their types. -/
structure Stores (pf : Platform) (ql : QuickList) (ns : Shape) : Prop extends Nodes pf ql ns where
  counted : Counted ql ns
  count : ql.count = total ns
  len : ql.len = ns.length
  full : ∀ n ∈ ns, n.2 ≠ []
  short : ∀ n ∈ ns, n.2.length < 2 ^ 16
  countable : total ns < 2 ^ 64
  linkable : ns.length < 2 ^ 32

/-- An entry of a list: the nodes before its own, the entries before it there, and the entries
and nodes behind it. -/
structure Place where
  before : Shape
  node : Nat
  left : List Entry
  entry : Entry
  right : List Entry
  after : Shape

namespace Place

variable (pl : Place)

/-- The entries of the node. -/
def entries : List Entry := pl.left ++ pl.entry :: pl.right

/-- The list. -/
def shape : Shape := pl.before ++ (pl.node, pl.entries) :: pl.after

/-- The number of entries before. -/
def index : Nat := total pl.before + pl.left.length

/-- The entry as `quicklistIndex` stores it, with the offset counted from the head or the tail of
the node. -/
def found (forward : Bool) : QuicklistEntry where
  node := some pl.node
  zi := some (10 + size pl.left)
  value := some pl.entry.value
  offset := if forward then pl.left.length else -(pl.right.length + 1 : Int)

theorem length_entries : pl.entries.length = pl.left.length + pl.right.length + 1 := by
  simp [entries]
  omega

theorem mem_shape : (pl.node, pl.entries) ∈ pl.shape := mem_self

theorem total_shape : total pl.shape = pl.index + (pl.right.length + 1) + total pl.after := by
  have hlen := pl.length_entries
  unfold shape index
  rw [total_append, total_cons]
  dsimp only
  omega

/-- The offset means the entry, whichever end it is counted from. -/
theorem position_found (forward : Bool) (hshort : pl.entries.length < 2 ^ 16) :
    position pl.entries.length (pl.found forward).offset = some pl.left.length ∧
      -(2 ^ 31) ≤ (pl.found forward).offset ∧ (pl.found forward).offset < 2 ^ 31 := by
  have hlen := pl.length_entries
  unfold found position
  dsimp only
  cases forward with
  | true =>
      rw [if_pos rfl, if_pos (by omega), if_pos (by omega), Int.toNat_natCast]
      exact ⟨rfl, by omega, by omega⟩
  | false =>
      rw [if_neg Bool.false_ne_true, if_neg (by omega), if_pos (by omega)]
      refine ⟨?_, by omega, by omega⟩
      congr 1
      omega

end Place

section index

variable {ns : Shape}

theorem findNode_spec {index : Nat} : ∀ (ns : Shape) (accum : Nat), Counted ql ns → accum ≤ index →
    index < accum + total ns → ∃ as p es bs, ns = as ++ (p, es) :: bs ∧
      findNode ql index (ns.map Prod.fst) accum = some (p, accum + total as) ∧
      accum + total as ≤ index ∧ index < accum + total as + es.length := by
  intro ns
  induction ns with
  | nil =>
      intro accum _ hle hlt
      rw [total_nil] at hlt
      omega
  | cons n ns ih =>
      intro accum hc hle hlt
      obtain ⟨p, es⟩ := n
      have hcount : (ql.node p).count = es.length := hc _ List.mem_cons_self
      rw [total_cons] at hlt
      rw [List.map_cons, findNode, hcount]
      by_cases hin : accum + es.length > index
      · refine ⟨[], p, es, ns, rfl, ?_, ?_, ?_⟩
        · rw [if_pos hin]
          rfl
        · rw [total_nil]
          omega
        · rw [total_nil]
          omega
      · obtain ⟨as, q, fs, bs, heq, hfind, hle', hlt'⟩ := ih (accum + es.length)
          (fun m hm => hc m (List.mem_cons_of_mem _ hm)) (by omega) (by dsimp only at hlt; omega)
        refine ⟨(p, es) :: as, q, fs, bs, by rw [heq]; rfl, ?_, ?_, ?_⟩
        · rw [if_neg hin, hfind, total_cons, Nat.add_assoc]
        · rw [total_cons]
          dsimp only
          omega
        · rw [total_cons]
          dsimp only
          omega

theorem total_reverse (ns : Shape) : total ns.reverse = total ns := by
  unfold total
  rw [List.map_reverse, List.sum_reverse]

/-- A position falls into one node. -/
theorem split_unique {as bs as' bs' : Shape} {n n' : Nat × List Entry} {k : Nat}
    (heq : as ++ n :: bs = as' ++ n' :: bs') (hle : total as ≤ k) (hlt : k < total as + n.2.length)
    (hle' : total as' ≤ k) (hlt' : k < total as' + n'.2.length) : as = as' ∧ n = n' ∧ bs = bs' := by
  have hsame : as.length = as'.length := by
    by_contra hne
    rcases List.append_eq_append_iff.mp heq with ⟨cs, hcs, hcs'⟩ | ⟨cs, hcs, hcs'⟩
    · rcases cs with _ | ⟨c, cs⟩
      · rw [List.append_nil] at hcs
        exact hne (by rw [hcs])
      · have hsum := congrArg total hcs
        rw [total_append, total_cons] at hsum
        rw [← (List.cons.inj hcs').1] at hsum
        omega
    · rcases cs with _ | ⟨c, cs⟩
      · rw [List.append_nil] at hcs
        exact hne (by rw [hcs])
      · have hsum := congrArg total hcs
        rw [total_append, total_cons] at hsum
        rw [← (List.cons.inj hcs').1] at hsum
        omega
  obtain ⟨has, hrest⟩ := List.append_inj heq hsame
  exact ⟨has, List.cons.inj hrest⟩

/-- Two places of one list at one position are the same. -/
theorem Place.unique {pl pl' : Place} (hshape : pl.shape = pl'.shape) (hindex : pl.index = pl'.index) :
    pl = pl' := by
  have hlen := pl.length_entries
  have hlen' := pl'.length_entries
  unfold Place.index at hindex
  obtain ⟨hbefore, hn, hafter⟩ := @split_unique _ _ _ _ _ _ (total pl.before + pl.left.length) hshape
    (Nat.le_add_right _ _) (by dsimp only; omega) (by omega) (by dsimp only; omega)
  obtain ⟨hnode, hentries⟩ := Prod.mk.inj hn
  rw [hbefore] at hindex
  obtain ⟨hleft, hrest⟩ := List.append_inj hentries (Nat.add_left_cancel hindex)
  obtain ⟨hentry, hright⟩ := List.cons.inj hrest
  cases pl
  cases pl'
  dsimp only at hbefore hnode hleft hentry hright hafter
  rw [hbefore, hnode, hleft, hentry, hright, hafter]

/-- Where the entry at a position is, counted from the head or from the tail. -/
theorem findNode_place (h : Stores pf ql ns) {k : Nat} (hk : k < total ns) :
    ∃ pl : Place, pl.shape = ns ∧ pl.index = k ∧
      findNode ql k ql.nodes 0 = some (pl.node, total pl.before) ∧
      findNode ql (total ns - 1 - k) ql.nodes.reverse 0 = some (pl.node, total pl.after) := by
  obtain ⟨as, p, es, bs, heq, hfind, hle, hin⟩ := @findNode_spec ql k ns 0 h.counted (Nat.zero_le _)
    (by omega)
  obtain ⟨xs, e, ys, hes, hlen, -⟩ := @exists_split es (k - total as) (by omega)
  have htotal := congrArg total heq
  rw [total_append, total_cons] at htotal
  dsimp only at htotal
  have hcounted : Counted ql ns.reverse := fun n hn => h.counted n (List.mem_reverse.mp hn)
  obtain ⟨as', p', es', bs', heq', hfind', hle', hin'⟩ := @findNode_spec ql (total ns - 1 - k)
    ns.reverse 0 hcounted (Nat.zero_le _) (by rw [total_reverse]; omega)
  have hns : ns = bs'.reverse ++ (p', es') :: as'.reverse := by
    rw [← List.reverse_reverse ns, heq']
    simp
  have htotal' := congrArg total hns
  rw [total_append, total_cons, total_reverse, total_reverse] at htotal'
  dsimp only at htotal'
  -- both searches end at the same node
  obtain ⟨has, hpair, hbs⟩ := @split_unique _ _ _ _ _ _ k (heq.symm.trans hns) (by omega)
    (by dsimp only; omega) (by rw [total_reverse]; omega) (by rw [total_reverse]; dsimp only; omega)
  obtain ⟨hp, hes'⟩ := Prod.mk.inj hpair
  refine ⟨⟨as, p, xs, e, ys, bs⟩, ?_, ?_, ?_, ?_⟩
  · rw [heq, hes]
    rfl
  · show total as + xs.length = k
    omega
  · rw [h.nodes, hfind, Nat.zero_add]
  · rw [h.nodes, ← List.map_reverse, hfind', Nat.zero_add, ← hp]
    show some (p, total as') = some (p, total bs)
    rw [hbs, total_reverse]

/-- `quicklistIndex` out of range. -/
theorem gives_quicklistIndex_none {Q : Option QuicklistEntry → QuickList → Prop} {idx : Int}
    (h : Stores pf ql ns) (hlow : -(2 ^ 63) ≤ idx) (hpos : position (total ns) idx = none)
    (hQ : Q none ql) : Gives (quicklistIndex pf idx) Q ql := by
  have hout := position_eq_none hpos
  have hcount := h.count
  unfold Gives quicklistIndex
  rw [yields_bind, yields_get]
  dsimp only
  rw [yields_ite, if_pos]
  · exact hQ
  · by_cases hforward : 0 ≤ idx
    · rw [decide_eq_true hforward, if_pos rfl]
      omega
    · rw [decide_eq_false hforward, if_neg Bool.false_ne_true]
      unfold toULong
      omega

/-- `quicklistIndex` finds the entry at its position, and opens its node. -/
theorem gives_quicklistIndex {Q : Option QuicklistEntry → QuickList → Prop} {idx : Int} {k : Nat}
    (h : Stores pf ql ns) (hlow : -(2 ^ 63) ≤ idx) (hpos : position (total ns) idx = some k)
    (hQ : ∀ (pl : Place) (ql' : QuickList), pl.shape = ns → pl.index = k →
      Reopened pf ns pl.node pl.entries ql ql' → (∀ q, ql.Raw q → ql'.Raw q) →
      Q (some (pl.found (decide (0 ≤ idx)))) ql') :
    Gives (quicklistIndex pf idx) Q ql := by
  obtain ⟨hk, hcases⟩ := position_eq_some hpos
  obtain ⟨pl, hshape, hindex, hfind, hfind'⟩ := findNode_place h hk
  have hcount := h.count
  have hmem : (pl.node, pl.entries) ∈ ns := hshape ▸ pl.mem_shape
  have hshort : pl.entries.length < 2 ^ 16 := h.short _ hmem
  have hlen := pl.length_entries
  have htotal : total ns = total pl.before + (pl.entries.length + total pl.after) := by
    rw [← hshape, Place.shape, total_append, total_cons]
  have hentry : total pl.before + pl.left.length = k := hindex
  have hcountable := h.countable
  -- the code's own index, offset and node
  obtain ⟨index, accum, hcode, hnode, hoffset⟩ : ∃ index accum : Nat,
      (if decide (0 ≤ idx) = true then idx.toNat else toULong (-idx - 1)) = index ∧
      findNode ql index (if decide (0 ≤ idx) = true then ql.nodes else ql.nodes.reverse) 0 =
        some (pl.node, accum) ∧
      (if decide (0 ≤ idx) = true then toInt (index - accum : Int)
        else toInt (-(index : Int) - 1 + accum)) = (pl.found (decide (0 ≤ idx))).offset := by
    unfold Place.found
    rcases hcases with ⟨hforward, hidx⟩ | ⟨hback, hidx⟩
    · rw [decide_eq_true hforward]
      refine ⟨k, total pl.before, ?_, hfind, ?_⟩
      · rw [if_pos rfl]
        omega
      · rw [if_pos rfl, toInt_eq (by omega) (by omega)]
        dsimp only
        rw [if_pos rfl]
        omega
    · rw [decide_eq_false (by omega)]
      refine ⟨total ns - 1 - k, total pl.after, ?_, hfind', ?_⟩
      · rw [if_neg Bool.false_ne_true]
        unfold toULong
        omega
      · rw [if_neg Bool.false_ne_true, toInt_eq (by omega) (by omega)]
        dsimp only
        rw [if_neg Bool.false_ne_true]
        omega
  have hbelow : index < total ns := by
    rcases hcases with ⟨hforward, hidx⟩ | ⟨hback, hidx⟩
    · rw [decide_eq_true hforward, if_pos rfl] at hcode
      omega
    · rw [decide_eq_false (by omega), if_neg Bool.false_ne_true] at hcode
      unfold toULong at hcode
      omega
  have hplace := pl.position_found (decide (0 ≤ idx)) hshort
  have htake : pl.entries.take pl.left.length = pl.left := List.take_left
  unfold Gives quicklistIndex
  rw [yields_bind, yields_get]
  dsimp only
  rw [hcode, yields_ite, if_neg (by omega), hnode]
  dsimp only
  rw [hoffset, yields_bind]
  refine gives_decompressForUse h.toNodes hmem fun ql' hopen hkeep => ?_
  obtain ⟨zl, hzl, hrep⟩ := hopen.raw
  rw [yields_bind]
  refine gives_rawAt (hopen.nodes.mem hmem) hzl ?_
  rw [ziplistIndex_spec hrep hplace.2.1 hplace.2.2, hplace.1, yields_bind, yields_orFail,
    Option.map_some, htake, ziplistGet_spec hrep, yields_bind, yields_orFail, yields_pure]
  exact hQ pl ql' hshape hindex hopen hkeep

end index

/-! ## A list of one node -/

/-- Nothing is compressed. -/
def plainPlatform : Platform where
  mem _ := 0
  lzfCompress _ := none
  lzfDecompress _ _ := none
  inverse h := by cases h

/-- A list whose nodes have these entries. -/
def listOf (ess : List (List Entry)) (fill : Int) (compress : Nat) : QuickList where
  nodes := List.range ess.length
  node p :=
    let es := ess.getD p []
    ⟨.raw (layout es.length es), 11 + size es, es.length, false⟩
  fresh := ess.length
  count := (ess.map List.length).sum
  len := ess.length
  fill := fill
  compress := compress

/-- The nodes of such a list. -/
def shapeOf (ess : List (List Entry)) : Shape := ess.zipIdx.map Prod.swap

theorem total_shapeOf (ess : List (List Entry)) : total (shapeOf ess) = (ess.map List.length).sum := by
  unfold total shapeOf
  rw [List.map_map, ← @List.zipIdx_map_fst _ 0 ess, List.map_map, List.zipIdx_map_fst]
  rfl

theorem listOf_stores {ess : List (List Entry)} {fill : Int} {compress : Nat}
    (hess : ∀ es ∈ ess, es ≠ [] ∧ es.length < 2 ^ 16 ∧ Fits 0 es ∧ 11 + size es < 2 ^ 32)
    (hcountable : (ess.map List.length).sum < 2 ^ 64) (hlinkable : ess.length < 2 ^ 32) :
    Stores pf (listOf ess fill compress) (shapeOf ess) := by
  have hmem : ∀ n ∈ shapeOf ess, n.2 ∈ ess ∧ ess.getD n.1 [] = n.2 := by
    intro n hn
    obtain ⟨⟨es, i⟩, hin, rfl⟩ := List.mem_map.mp hn
    have hget := List.mem_zipIdx_iff_getElem?.mp hin
    refine ⟨List.mem_of_getElem? hget, ?_⟩
    show ess.getD i [] = es
    rw [List.getD_eq_getElem?_getD, hget]
    rfl
  refine ⟨⟨?_, List.nodup_range, fun p hp => List.mem_range.mp hp, fun n hn => ?_⟩, fun n hn => ?_, ?_,
    ?_, fun n hn => (hess _ (hmem n hn).1).1, fun n hn => (hess _ (hmem n hn).1).2.1, ?_, ?_⟩
  · show List.range ess.length = _
    unfold shapeOf
    rw [List.map_map, show Prod.fst ∘ Prod.swap = (Prod.snd : List Entry × Nat → Nat) from rfl,
      List.zipIdx_map_snd, List.range_eq_range']
  · obtain ⟨hin, hget⟩ := hmem n hn
    obtain ⟨-, hshort, hfits, hsmall⟩ := hess _ hin
    unfold listOf
    dsimp only
    rw [hget]
    refine nodeHolds_raw ⟨⟨n.2.length, rfl, ?_⟩, hfits, hsmall⟩
    rcases Nat.lt_or_ge n.2.length UINT16_MAX with hlt | hge
    · exact .inr ⟨hlt, rfl⟩
    · exact .inl (Nat.le_antisymm (Nat.le_of_lt_succ hshort) hge)
  · show (ess.getD n.1 []).length = _
    rw [(hmem n hn).2]
  · exact (total_shapeOf ess).symm
  · unfold shapeOf
    rw [List.length_map, List.length_zipIdx]
    rfl
  · rw [total_shapeOf]
    exact hcountable
  · unfold shapeOf
    rw [List.length_map, List.length_zipIdx]
    exact hlinkable

/-- Its nodes are open. -/
theorem listOf_settled {ess : List (List Entry)} {fill : Int} {compress : Nat} {ns : Shape}
    (h : Stores pf (listOf ess fill compress) ns) (hdepth : compress < 2 ^ 16) :
    Settled pf (listOf ess fill compress) where
  toReady := h.ready
  fresh := h.old
  depth := hdepth
  short _ _ _ := trivial
  ends _ _ := trivial
  unflagged _ _ := rfl

/-- A list whose only node has these entries. -/
def single (es : List Entry) : QuickList := listOf [es] (-2) 0

theorem single_stores {es : List Entry} (hfull : es ≠ []) (hshort : es.length < 2 ^ 16)
    (hfits : Fits 0 es) (hsmall : 11 + size es < 2 ^ 32) :
    Stores pf (single es) [(0, es)] := by
  refine listOf_stores (fun fs hfs => ?_) ?_ (by rw [List.length_singleton]; decide)
  · rw [List.mem_singleton.mp hfs]
    exact ⟨hfull, hshort, hfits, hsmall⟩
  · rw [List.map_singleton, List.sum_singleton]
    omega

end Quicklist

end RedisCore
