/-
# `RedisCore.Quicklist.Depth` — which nodes the sweep leaves open

Where the node counter is right, the sweep opens the first and the last nodes up to the depth,
and closes the two nodes on which its cursors stop, if they can be compressed.  These are the
first two that are not at the ends, except in a list of exactly twice the depth: there the
cursors have crossed, and the sweep closes the innermost two of the nodes it has just opened.
-/
import RedisCore.Quicklist.Contents
import RedisCore.Quicklist.EndsRuns

namespace RedisCore

namespace Quicklist

open Marked Ziplist Splice

variable {pf : Platform} {X : Prop} {E : Fault → Prop} {ql ql' : QuickList} {p q : Nat}

/-! ## Nodes that can be compressed -/

/-- The ziplist of a node is long enough for compression and gets shorter. -/
def Squeezable (pf : Platform) (node : QuicklistNode) : Prop :=
  MIN_COMPRESS_BYTES ≤ node.sz ∧ ∃ zl, Holds pf node zl ∧ (squeeze pf zl).isSome

theorem readAt_whole (zl : Bytes) : readAt zl 0 zl.length = some zl := by
  unfold readAt
  rw [if_pos (by omega)]
  unfold slice
  rw [List.drop_zero, List.take_length]

theorem compressible_iff {node : QuicklistNode} (h : Measured pf node) :
    Compressible pf node ↔ node.zl.IsRaw ∧ Squeezable pf node := by
  unfold Compressible Squeezable Holds
  rcases hzl : node.zl with zl | c
  · dsimp only
    constructor
    · rintro ⟨hsz, hsome⟩
      rcases h with ⟨zl', hholds, hlen⟩ | ⟨_, hsmall⟩
      · unfold Holds at hholds
        rw [hzl] at hholds
        obtain rfl : zl = zl' := hholds
        rw [← hlen, readAt_whole] at hsome
        exact ⟨trivial, hsz, zl, rfl, hsome⟩
      · omega
    · rintro ⟨_, hsz, zl', rfl, hsome⟩
      rcases h with ⟨zl', hholds, hlen⟩ | ⟨_, hsmall⟩
      · unfold Holds at hholds
        rw [hzl] at hholds
        obtain rfl : zl = zl' := hholds
        rw [← hlen, readAt_whole]
        exact ⟨hlen ▸ hsz, hsome⟩
      · omega
  · exact ⟨False.elim, fun hraw => hraw.1⟩

/-- Opening or closing a node changes nothing here. -/
theorem RecodedNode.squeezable {a b : QuicklistNode} (h : RecodedNode pf a b) (ha : Measured pf a) :
    Squeezable pf b ↔ Squeezable pf a := by
  unfold Squeezable
  rw [h.sz]
  refine and_congr_right fun hsz => ?_
  rcases ha with ⟨zl, hholds, hlen⟩ | ⟨_, hsmall⟩
  · have hholds' := h.holds zl hholds hlen
    constructor
    · rintro ⟨zl', hzl', hsome⟩
      rw [hzl'.unique hholds'] at hsome
      exact ⟨zl, hholds, hsome⟩
    · rintro ⟨zl', hzl', hsome⟩
      rw [hzl'.unique hholds] at hsome
      exact ⟨zl, hholds', hsome⟩
  · omega

/-- What a node stands for is kept. -/
theorem RecodedNode.keeps {a b : QuicklistNode} (h : RecodedNode pf a b) (ha : Measured pf a)
    {zl : Bytes} (hzl : Holds pf a zl) : Holds pf b zl := by
  rcases ha with ⟨zl', hholds, hlen⟩ | ⟨hraw, hsmall⟩
  · rw [hzl.unique hholds]
    exact h.holds zl' hholds hlen
  · unfold Holds at hzl ⊢
    rw [h.small hraw hsmall]
    rcases ha : a.zl with zl' | c
    · rw [ha] at hzl
      exact hzl
    · rw [ha] at hraw
      exact hraw.elim

/-! ## One node -/

/-- `quicklistCompressNode` closes a node if it can be compressed. -/
theorem wp_closeNode {node : Option Nat} {Q : Unit → QuickList → Prop}
    (hnode : ∀ p, node = some p → p ∈ ql.nodes) (hmeasured : ∀ p ∈ ql.nodes, Measured pf (ql.node p))
    (h : ∀ ql', Recoded pf ql ql' → (∀ q ∈ ql.nodes, ql'.Raw q ↔
      ql.Raw q ∧ ¬ (node = some q ∧ Squeezable pf (ql.node q))) → Q () ql') :
    wp X E (quicklistCompressNode pf node) Q ql := by
  rcases node with _ | p
  · refine h ql (.refl ql) fun q _ => ⟨fun hq => ⟨hq, fun hno => ?_⟩, And.left⟩
    cases hno.1
  · have hp := hnode p rfl
    have hiff := compressible_iff (hmeasured p hp)
    refine wp_compressNode (fun hno => (hno hp).elim) (.inr fun _ => hmeasured p hp)
      fun ql' _ hclosed => h ql' hclosed.toRecoded fun q hq => ?_
    by_cases hqp : q = p
    · subst hqp
      constructor
      · intro hraw
        have hno : ¬ Compressible pf (ql.node q) := fun hyes => hclosed.shut hyes hraw
        rw [hclosed.same hno] at hraw
        exact ⟨hraw, fun hsq => hno (hiff.mpr ⟨hraw, hsq.2⟩)⟩
      · rintro ⟨hraw, hno⟩
        rw [hclosed.same fun hyes => hno ⟨rfl, (hiff.mp hyes).2⟩]
        exact hraw
    · unfold QuickList.Raw
      rw [hclosed.other q hqp]
      refine ⟨fun hraw => ⟨hraw, fun hno => hqp ?_⟩, And.left⟩
      exact (Option.some.inj hno.1).symm

/-! ## The sweep -/

/-- A node is among the first or the last `c` ones. -/
def NearEnd (c : Nat) (ql : QuickList) (q : Nat) : Prop :=
  ∃ j, ql.nodes[j]? = some q ∧ (j < c ∨ ql.nodes.length ≤ j + c)

/-- The sweep tries to close a node: its argument, if it is further inside, or one of the two on
which the cursors stop. -/
def Shuts (c : Nat) (node : Option Nat) (ql : QuickList) (q : Nat) : Prop :=
  node = some q ∧ Inner c ql node ∨
    2 ≤ c ∧ (ql.nodes[c]? = some q ∨ ql.nodes[ql.nodes.length - c - 1]? = some q)

theorem openTo_iff {c : Nat} : OpenTo c ql ↔ ∀ q ∈ ql.nodes, NearEnd c ql q → ql.Raw q := by
  constructor
  · rintro h q _ ⟨j, hj, hin⟩
    exact h j q hj hin
  · intro h j q hj hin
    exact h q (List.mem_of_getElem? hj) ⟨j, hj, hin⟩

/-- A list of which the ziplists can be had and measured. -/
structure Sweepable (pf : Platform) (ql : QuickList) : Prop extends Ready pf ql where
  measured : ∀ p ∈ ql.nodes, Measured pf (ql.node p)

theorem Sweepable.recoded (h : Sweepable pf ql) (hr : Recoded pf ql ql') : Sweepable pf ql' where
  toReady := h.toReady.recoded hr
  measured p hp := (hr.node p).measured (h.measured p (hr.nodes ▸ hp))

/-- **The sweep**, in a list that is long enough for it: which nodes are raw after it. -/
theorem wp_sweep {node : Option Nat} {Q : Unit → QuickList → Prop} (hsw : Sweepable pf ql)
    (hnode : ∀ p, node = some p → p ∈ ql.nodes) (hc : ql.compress ≠ 0)
    (hl : ql.compress * 2 ≤ ql.len) (hn : ql.compress * 2 ≤ ql.nodes.length)
    (h : ∀ ql', Recoded pf ql ql' → (∀ q ∈ ql.nodes, ql'.Raw q ↔
      (NearEnd ql.compress ql q ∨ ql.Raw q) ∧
        ¬ (Shuts ql.compress node ql q ∧ Squeezable pf (ql.node q))) → Q () ql') :
    wp X E (quicklistCompressTo pf node) Q ql := by
  unfold quicklistCompressTo
  rw [wp_bind, wp_get, wp_ite, wp_pure, if_neg (by omega), wp_bind, head_eq, tail_eq]
  refine wp_compressLoop ql.compress 0 false ql hsw.toReady (by omega)
    (fun j p hj hin => absurd (List.getElem?_eq_some_iff.mp hj).1 (by omega))
    ⟨fun _ j hj hin => by omega, fun _ => rfl⟩ (fun hc0 => (hc hc0).elim)
    fun r ql₁ hrec₁ hswept => ?_
  rw [Nat.zero_add] at hswept
  have hnodes₁ := hrec₁.nodes
  rcases r with _ | ⟨forward, reverse, inDepth⟩
  · have hmet := hswept.1
    rw [hnodes₁] at hmet
    omega
  obtain ⟨-, rfl, rfl, hopen, hinner, hsame⟩ := hswept
  have hraw₁ : ∀ q ∈ ql.nodes, ql₁.Raw q ↔ NearEnd ql.compress ql q ∨ ql.Raw q := by
    intro q hq
    obtain ⟨j, hget⟩ := List.getElem?_of_mem hq
    have hj := (List.getElem?_eq_some_iff.mp hget).1
    by_cases hin : j < ql.compress ∨ ql.nodes.length ≤ j + ql.compress
    · exact ⟨fun _ => .inl ⟨j, hget, hin⟩, fun _ =>
        hopen j q (hnodes₁ ▸ hget) (hnodes₁ ▸ hin)⟩
    · have hnode₁ := hsame j q (hnodes₁ ▸ hget) (by omega) (by rw [hnodes₁]; omega)
      unfold QuickList.Raw
      rw [hnode₁]
      refine ⟨.inr, fun hor => hor.resolve_left ?_⟩
      rintro ⟨i, hi, hin'⟩
      have hij := (List.getElem?_inj (List.getElem?_eq_some_iff.mp hi).1 hsw.nodup).mp
        (hi.trans hget.symm)
      exact hin (hij ▸ hin')
  have hsqueeze : ∀ {ql₂}, Recoded pf ql ql₂ → ∀ q ∈ ql.nodes,
      (Squeezable pf (ql₂.node q) ↔ Squeezable pf (ql.node q)) :=
    fun hrec q hq => (hrec.node q).squeezable (hsw.measured q hq)
  dsimp only
  rw [wp_bind]
  have hfirst : wp X E (if inDepth then pure () else quicklistCompressNode pf node)
      (fun _ ql₂ => Recoded pf ql ql₂ ∧ ∀ q ∈ ql.nodes, ql₂.Raw q ↔ ql₁.Raw q ∧
        ¬ ((node = some q ∧ Inner ql.compress ql node) ∧ Squeezable pf (ql.node q))) ql₁ := by
    have hin : inDepth = false ↔ Inner ql.compress ql node := by
      rw [hinner]
      unfold Inner
      rw [hnodes₁]
    rw [wp_ite, wp_pure]
    split
    · next hd =>
      refine ⟨hrec₁, fun q _ => ⟨fun hq => ⟨hq, fun hno => ?_⟩, And.left⟩⟩
      rw [hin.mpr hno.1.2] at hd
      cases hd
    · next hd =>
      refine wp_closeNode (fun p hp => hnodes₁ ▸ hnode p hp) (hsw.recoded hrec₁).measured
        fun ql₂ hrec₂ hraw₂ => ⟨hrec₁.trans hrec₂, fun q hq => ?_⟩
      rw [hraw₂ q (hnodes₁ ▸ hq), hsqueeze hrec₁ q hq,
        and_iff_left (hin.mp (Bool.eq_false_of_not_eq_true hd))]
  refine wp_mono hfirst fun _ ql₂ hql₂ => ?_
  obtain ⟨hrec₂, hraw₂⟩ := hql₂
  have hnodes₂ := hrec₂.nodes
  rw [wp_ite, wp_pure, hnodes₁]
  split
  case isFalse hdeep =>
    refine h ql₂ hrec₂ fun q hq => ?_
    have hshuts : Shuts ql.compress node ql q ↔ node = some q ∧ Inner ql.compress ql node :=
      or_iff_left fun hno => hdeep (by omega)
    rw [hraw₂ q hq, hraw₁ q hq, hshuts]
  case isTrue hdeep =>
    rw [wp_bind]
    refine wp_closeNode (fun p hp => hnodes₂ ▸ List.mem_of_getElem? hp) (hsw.recoded hrec₂).measured
      fun ql₃ hrec₃ hraw₃ => ?_
    have hrec₃' := hrec₂.trans hrec₃
    refine wp_closeNode (fun p hp => hrec₃'.nodes ▸ List.mem_of_getElem? hp)
      (hsw.recoded hrec₃').measured fun ql₄ hrec₄ hraw₄ => h ql₄ (hrec₃'.trans hrec₄) fun q hq => ?_
    have hdeep' : 2 ≤ ql.compress := by omega
    rw [hraw₄ q (hrec₃'.nodes ▸ hq), hraw₃ q (hnodes₂ ▸ hq), hraw₂ q hq, hraw₁ q hq,
      hsqueeze hrec₃' q hq, hsqueeze hrec₂ q hq]
    unfold Shuts
    tauto

/-! ## The ends of the list -/

/-- The sweep as it should be: the first and the last nodes are open, up to the depth, and nothing
else is different but the form of the nodes. -/
def OpensEnds (pf : Platform) (node : Option Nat) (ql : QuickList) : Prop :=
  Gives (quicklistCompressTo pf node) (fun _ ql' => OpenTo ql.compress ql' ∧
    ql'.nodes = ql.nodes ∧ Frame ql ql' ∧
    ∀ p ∈ ql.nodes, ∀ zl, Holds pf (ql.node p) zl → Holds pf (ql'.node p) zl) ql

/-- No node is closed in a list that is too short, and in one of twice the depth the innermost two
nodes cannot be compressed. -/
def Uncrossed (pf : Platform) (ql : QuickList) : Prop :=
  (ql.nodes.length < ql.compress * 2 → ∀ p ∈ ql.nodes, ql.Raw p) ∧
    (ql.nodes.length = ql.compress * 2 → 2 ≤ ql.compress → ∀ p,
      ql.nodes[ql.compress]? = some p ∨ ql.nodes[ql.compress - 1]? = some p →
      ¬ Squeezable pf (ql.node p))

section depth

variable {node : Option Nat}

theorem Recoded.onlyForm (h : Recoded pf ql ql') (hsw : Sweepable pf ql) :
    ql'.nodes = ql.nodes ∧ Frame ql ql' ∧
      ∀ p ∈ ql.nodes, ∀ zl, Holds pf (ql.node p) zl → Holds pf (ql'.node p) zl :=
  ⟨h.nodes, h.frame, fun p hp _ hzl => (h.node p).keeps (hsw.measured p hp) hzl⟩

/-- Which nodes are shut at the ends. -/
theorem shuts_nearEnd (hsw : Sweepable pf ql) (hn : ql.compress * 2 ≤ ql.nodes.length)
    (hend : NearEnd ql.compress ql q) :
    Shuts ql.compress node ql q ↔ ql.nodes.length = ql.compress * 2 ∧ 2 ≤ ql.compress ∧
      (ql.nodes[ql.compress]? = some q ∨ ql.nodes[ql.compress - 1]? = some q) := by
  obtain ⟨j, hj, hin⟩ := hend
  have hlt := (List.getElem?_eq_some_iff.mp hj).1
  have hat : ∀ {i}, ql.nodes[i]? = some q → i = j := fun {i} hi =>
    (List.getElem?_inj (List.getElem?_eq_some_iff.mp hi).1 hsw.nodup).mp (hi.trans hj.symm)
  constructor
  · rintro (⟨hq, hinner⟩ | ⟨hdeep, hcursor⟩)
    · exact absurd (hj.trans hq.symm) (hinner j hlt hin)
    · have hshort : ql.nodes.length = ql.compress * 2 := by
        rcases hcursor with hi | hi
        · have := hat hi
          omega
        · have := hat hi
          omega
      have hback : ql.nodes.length - ql.compress - 1 = ql.compress - 1 := by omega
      rw [hback] at hcursor
      exact ⟨hshort, hdeep, hcursor⟩
  · rintro ⟨hshort, hdeep, hcursor⟩
    have hback : ql.nodes.length - ql.compress - 1 = ql.compress - 1 := by omega
    rw [← hback] at hcursor
    exact .inr ⟨hdeep, hcursor⟩

/-- In a list that is too short nothing is done. -/
theorem gives_compressTo_short (hshort : ql.len < ql.compress * 2) :
    Gives (quicklistCompressTo pf node) (fun _ ql' => ql' = ql) ql := by
  unfold Gives quicklistCompressTo
  rw [yields_bind, yields_get, yields_ite, if_pos (.inr hshort), yields_pure]

/-- In any other list the ends are open, if the cursors have not crossed. -/
theorem gives_compressTo_ends (hsw : Sweepable pf ql) (hnode : ∀ p, node = some p → p ∈ ql.nodes)
    (hlen : ql.len = ql.nodes.length) (hc : 1 ≤ ql.compress)
    (hn : ql.compress * 2 ≤ ql.nodes.length) :
    Gives (quicklistCompressTo pf node) (fun _ ql' => Recoded pf ql ql' ∧
      ∀ q ∈ ql.nodes, NearEnd ql.compress ql q → (ql'.Raw q ↔
        ¬ ((ql.nodes.length = ql.compress * 2 ∧ 2 ≤ ql.compress ∧
          (ql.nodes[ql.compress]? = some q ∨ ql.nodes[ql.compress - 1]? = some q)) ∧
          Squeezable pf (ql.node q)))) ql := by
  refine yields_of_wp (wp_sweep hsw hnode (by omega) (by omega) hn fun ql' hrec hraw =>
    ⟨hrec, fun q hq hend => ?_⟩)
  rw [hraw q hq, shuts_nearEnd hsw hn hend]
  exact and_iff_right (.inl hend)

/-- Nodes are at the ends wherever the list has the same nodes. -/
theorem NearEnd.congr {c : Nat} (h : NearEnd c ql q) (hnodes : ql'.nodes = ql.nodes) :
    NearEnd c ql' q := by
  unfold NearEnd at h ⊢
  rw [hnodes]
  exact h

theorem OpensEnds.uncrossed (h : OpensEnds pf node ql) (hsw : Sweepable pf ql)
    (hnode : ∀ p, node = some p → p ∈ ql.nodes) (hlen : ql.len = ql.nodes.length)
    (hc : 1 ≤ ql.compress) : Uncrossed pf ql := by
  constructor
  · intro hshort p hp
    obtain ⟨_, ql', ⟨hopen, -⟩, rfl⟩ :=
      Gives.exists (yields_and h (gives_compressTo_short (hlen ▸ hshort)))
    obtain ⟨j, hj⟩ := List.getElem?_of_mem hp
    exact hopen j p hj (by omega)
  · intro heq hdeep p hcursor hsq
    obtain ⟨_, ql', ⟨hopen, hnodes, -⟩, -, hraw⟩ :=
      Gives.exists (yields_and h (gives_compressTo_ends hsw hnode hlen hc (by omega)))
    have hp : p ∈ ql.nodes := hcursor.elim List.mem_of_getElem? List.mem_of_getElem?
    have hend : NearEnd ql.compress ql p := by
      rcases hcursor with hi | hi
      · exact ⟨_, hi, by omega⟩
      · exact ⟨_, hi, by omega⟩
    have hopened := openTo_iff.mp hopen p (hnodes ▸ hp) (hend.congr hnodes)
    exact (hraw p hp hend).mp hopened ⟨⟨heq, hdeep, hcursor⟩, hsq⟩

theorem Uncrossed.opensEnds (h : Uncrossed pf ql) (hsw : Sweepable pf ql)
    (hnode : ∀ p, node = some p → p ∈ ql.nodes) (hlen : ql.len = ql.nodes.length)
    (hc : 1 ≤ ql.compress) : OpensEnds pf node ql := by
  by_cases hshort : ql.nodes.length < ql.compress * 2
  · refine (gives_compressTo_short (hlen ▸ hshort)).mono fun _ ql' heq => ?_
    subst heq
    exact ⟨fun j p hj _ => h.1 hshort p (List.mem_of_getElem? hj), (Recoded.refl ql').onlyForm hsw⟩
  · refine (gives_compressTo_ends hsw hnode hlen hc (Nat.le_of_not_lt hshort)).mono
      fun _ ql' ⟨hrec, hraw⟩ => ⟨openTo_iff.mpr fun q hq hend => ?_, hrec.onlyForm hsw⟩
    refine (hraw q (hrec.nodes ▸ hq) (hend.congr hrec.nodes.symm)).mpr ?_
    rintro ⟨⟨heq, hdeep, hcursor⟩, hsq⟩
    exact h.2 heq hdeep q hcursor hsq

/-- **The depth.**  With the right counter the sweep opens the ends of the list, and leaves the
contents alone, if and only if its cursors have not crossed on nodes that can be compressed, and
there is nothing to open in a list that is too short for it. -/
theorem opensEnds_iff (hsw : Sweepable pf ql) (hnode : ∀ p, node = some p → p ∈ ql.nodes)
    (hlen : ql.len = ql.nodes.length) (hc : 1 ≤ ql.compress) :
    OpensEnds pf node ql ↔ Uncrossed pf ql :=
  ⟨fun h => h.uncrossed hsw hnode hlen hc, fun h => h.opensEnds hsw hnode hlen hc⟩

end depth

/-- A list of nodes with one string of sixty bytes each. -/
def sixtyNodes (n compress : Nat) : QuickList where
  nodes := List.range n
  node _ := ⟨.raw (sixtyList 97), 73, 1, false⟩
  fresh := n
  count := n
  len := n
  fill := 1
  compress := compress

theorem sixtyNodes_sweepable (n compress : Nat) :
    Sweepable sixtyPlatform (sixtyNodes n compress) where
  nodup := List.nodup_range
  sound _ _ := sound_of_raw trivial
  measured _ _ := .inl ⟨sixtyList 97, rfl, rfl⟩

/-- Three nodes are not crossed at depth one. -/
theorem opensEnds_three : OpensEnds sixtyPlatform none (sixtyNodes 3 1) :=
  (opensEnds_iff (sixtyNodes_sweepable 3 1) (fun _ h => by cases h) rfl (by decide)).mpr
    ⟨fun h => absurd h (by decide), fun h => absurd h (by decide)⟩

/-- Four nodes at depth two: the second and the third are closed. -/
theorem not_opensEnds_four : ¬ ∀ (pf : Platform) (ql : QuickList) (node : Option Nat),
    Sweepable pf ql → (∀ p, node = some p → p ∈ ql.nodes) → ql.len = ql.nodes.length →
    1 ≤ ql.compress → OpensEnds pf node ql := by
  intro hall
  have hnode : ∀ p, none = some p → p ∈ (sixtyNodes 4 2).nodes := fun _ h => by cases h
  have hsw := sixtyNodes_sweepable 4 2
  have huncrossed := (hall sixtyPlatform (sixtyNodes 4 2) none hsw hnode rfl (by decide)).uncrossed
    hsw hnode rfl (by decide)
  exact huncrossed.2 rfl (by decide) 2 (.inl rfl) ⟨by decide, sixtyList 97, rfl, by decide⟩

end Quicklist

end RedisCore
