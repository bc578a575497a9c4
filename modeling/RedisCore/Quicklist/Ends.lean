/-
# `RedisCore.Quicklist.Ends` — which nodes are open

With a compress depth the two end nodes of a quicklist have to be raw, since values are
pushed and popped there without a look at the encoding.  That is kept together with a
second fact: a list that is too short for its depth has raw nodes only, as the sweep does
nothing then and nodes become ends without being opened.

A node that was opened for use has a flag, and to close it the flag is enough, wherever the
node is by then.  The marks of the model are the closings that are wrong, and the runs
without a mark never apply a ziplist function to a compressed node.
-/
import RedisCore.Quicklist.Session
import RedisCore.Quicklist.Sweep

namespace RedisCore

namespace Quicklist

open CInt Marked Ziplist

variable {pf : Platform} {ql ql' ql'' : QuickList} {p q : Nat} {α : Type}

/-- A function without a mark is never applied to the wrong form of a node, and what it
leaves satisfies `Q`. -/
def Safely (m : M α) (Q : α → QuickList → Prop) (ql : QuickList) : Prop :=
  wp True (fun e => e ≠ Fault.lzf) m Q ql

theorem Safely.mono {m : M α} {Q Q' : α → QuickList → Prop} (h : Safely m Q ql)
    (hQ : ∀ a ql', Q a ql' → Q' a ql') : Safely m Q' ql := wp_mono h hQ

/-- Both ends are open, and everything is in a list that is too short. -/
structure Kempt (pf : Platform) (ql : QuickList) : Prop extends Ready pf ql where
  fresh : ∀ p ∈ ql.nodes, p < ql.fresh
  depth : ql.compress < 2 ^ 16
  short : ql.compress = 0 ∨ ql.nodes.length < ql.compress * 2 → ∀ p ∈ ql.nodes, ql.Raw p
  ends : OpenEnds ql

/-- The same, with the right number of nodes. -/
structure Tidy (pf : Platform) (ql : QuickList) : Prop extends Kempt pf ql where
  len : ql.len = ql.nodes.length
  small : ql.nodes.length < 2 ^ 32

/-- Nothing is linked, unlinked or closed. -/
structure Kept (pf : Platform) (ql ql' : QuickList) : Prop where
  nodes : ql'.nodes = ql.nodes
  fresh : ql'.fresh = ql.fresh
  len : ql'.len = ql.len
  compress : ql'.compress = ql.compress
  raw : ∀ q, ql.Raw q → ql'.Raw q
  sound : ∀ q, Sound pf (ql.node q) → Sound pf (ql'.node q)

theorem Kept.refl (ql : QuickList) : Kept pf ql ql :=
  ⟨rfl, rfl, rfl, rfl, fun _ => id, fun _ => id⟩

theorem Kept.trans (h : Kept pf ql ql') (h' : Kept pf ql' ql'') : Kept pf ql ql'' where
  nodes := h'.nodes.trans h.nodes
  fresh := h'.fresh.trans h.fresh
  len := h'.len.trans h.len
  compress := h'.compress.trans h.compress
  raw q := h'.raw q ∘ h.raw q
  sound q := h'.sound q ∘ h.sound q

theorem Ready.kept (h : Ready pf ql) (hk : Kept pf ql ql') : Ready pf ql' where
  nodup := hk.nodes ▸ h.nodup
  sound p hp := hk.sound p (h.sound p (hk.nodes ▸ hp))

theorem Kempt.kept (h : Kempt pf ql) (hk : Kept pf ql ql') : Kempt pf ql' where
  toReady := h.toReady.kept hk
  fresh p hp := hk.fresh ▸ h.fresh p (hk.nodes ▸ hp)
  depth := hk.compress ▸ h.depth
  short hs p hp := hk.raw p (h.short (by rwa [hk.nodes, hk.compress] at hs) p (hk.nodes ▸ hp))
  ends p hp := hk.raw p (h.ends p (by
    unfold QuickList.head QuickList.tail at hp ⊢
    rwa [hk.nodes] at hp))

/-- Only the counters may be others. -/
theorem Kempt.congr (h : Kempt pf ql) (hnodes : ql'.nodes = ql.nodes) (hnode : ql'.node = ql.node)
    (hfresh : ql'.fresh = ql.fresh) (hcompress : ql'.compress = ql.compress) : Kempt pf ql' := by
  have hraw : ∀ q, ql.Raw q → ql'.Raw q := by
    intro q hq
    unfold QuickList.Raw
    rwa [hnode]
  refine ⟨⟨hnodes ▸ h.nodup, fun q hq => hnode ▸ h.sound q (hnodes ▸ hq)⟩,
    fun q hq => hfresh ▸ h.fresh q (hnodes ▸ hq), hcompress ▸ h.depth,
    fun hs q hq => hraw q (h.short (by rwa [hnodes, hcompress] at hs) q (hnodes ▸ hq)),
    fun q hq => hraw q (h.ends q ?_)⟩
  unfold QuickList.head QuickList.tail at hq ⊢
  rwa [hnodes] at hq

theorem Tidy.kept (h : Tidy pf ql) (hk : Kept pf ql ql') : Tidy pf ql' where
  toKempt := h.toKempt.kept hk
  len := by rw [hk.len, hk.nodes, h.len]
  small := hk.nodes ▸ h.small

theorem quicklistNew_tidy (fill compress : Int) : Tidy pf (quicklistNew fill compress) := by
  refine ⟨⟨⟨List.nodup_nil, fun p hp => by cases hp⟩, (fun p hp => by cases hp), ?_,
    (fun _ p hp => by cases hp), fun p hp => ?_⟩, rfl, ?_⟩
  · show (quicklistSetCompressDepth _ compress).compress < 2 ^ 16
    unfold quicklistSetCompressDepth
    dsimp only
    omega
  · rcases hp with hp | hp
    · cases hp
    · cases hp
  · exact Nat.two_pow_pos 32

/-! ## Functions that open a node or change an open one -/

theorem Kept.setNode {node : QuicklistNode} (hraw : ql.Raw p → node.zl.IsRaw)
    (hsound : Sound pf (ql.node p) → Sound pf node) : Kept pf ql (ql.setNode p node) where
  nodes := rfl
  fresh := rfl
  len := rfl
  compress := rfl
  raw q hq := by
    unfold QuickList.Raw at hq ⊢
    by_cases hqp : q = p
    · rw [hqp, setNode_same]
      exact hraw (hqp ▸ hq)
    · rw [setNode_other hqp]
      exact hq
  sound q hq := by
    by_cases hqp : q = p
    · rw [hqp, setNode_same]
      exact hsound (hqp ▸ hq)
    · rw [setNode_other hqp]
      exact hq

theorem Opened.kept (h : Opened pf p ql ql') (hsound : Sound pf (ql.node p)) :
    Kept pf ql ql' where
  nodes := h.nodes
  fresh := h.fresh
  len := h.len
  compress := h.compress
  raw _ hq := h.keeps hsound hq
  sound q hq := (h.node q).sound hq

theorem raw_setNode {zl : Bytes} {node : QuicklistNode} (h : node.zl = .raw zl) :
    (ql.setNode p node).Raw p := by
  unfold QuickList.Raw
  rw [setNode_same, h]
  trivial

theorem setZl_kept {zl : Bytes} {Q : Unit → QuickList → Prop}
    (h : ∀ ql', Kept pf ql ql' → ql'.Raw p → Q () ql') : Safely (setZl p zl) Q ql := by
  unfold Safely setZl
  simp only [wp_bind, wp_nodeAt, wp_setNode]
  split
  · exact h _ (.setNode (fun _ => trivial) fun _ => sound_of_raw trivial) (raw_setNode rfl)
  · decide

theorem setCount_kept {n : Int} {Q : Unit → QuickList → Prop}
    (h : ∀ ql', Kept pf ql ql' → Q () ql') : Safely (setCount p n) Q ql := by
  unfold Safely setCount
  simp only [wp_bind, wp_nodeAt, wp_setNode]
  split
  · exact h _ (.setNode id id)
  · decide

theorem rawAt_safe {Q : Bytes → QuickList → Prop} (hraw : p ∈ ql.nodes → ql.Raw p)
    (h : ∀ zl, p ∈ ql.nodes → Q zl ql) : Safely (rawAt p) Q ql :=
  wp_rawAt (fun hp => .inl (hraw hp)) (fun _ => by decide) fun zl hp _ => h zl hp

theorem updateSz_kept {Q : Unit → QuickList → Prop} (hraw : p ∈ ql.nodes → ql.Raw p)
    (h : ∀ ql', Kept pf ql ql' → Q () ql') : Safely (quicklistNodeUpdateSz p) Q ql := by
  unfold Safely quicklistNodeUpdateSz
  rw [wp_bind]
  refine rawAt_safe hraw fun zl hp => ?_
  simp only [wp_bind, wp_orFail, wp_nodeAt, wp_setNode]
  refine ⟨fun sz _ => ?_, fun _ => by decide⟩
  rw [if_pos hp]
  exact h _ (.setNode id fun _ => sound_of_raw (hraw hp))

theorem addCount_kept {n : Int} {Q : Unit → QuickList → Prop}
    (h : ∀ ql', Kept pf ql ql' → Q () ql') : Safely (addCount n) Q ql :=
  h _ ⟨rfl, rfl, rfl, rfl, fun _ => id, fun _ => id⟩

theorem decompress_kept {Q : Unit → QuickList → Prop} (hready : Ready pf ql)
    (h : ∀ ql', p ∈ ql.nodes → Kept pf ql ql' → ql'.Raw p → Q () ql') :
    Safely (quicklistDecompressNode pf (some p)) Q ql :=
  wp_decompressNode (fun _ => by decide) fun ql' hp hopen =>
    h ql' hp (hopen.kept (hready.sound p hp)) (hopen.raw (hready.sound p hp))

theorem decompressForUse_kept {Q : Unit → QuickList → Prop} (hready : Ready pf ql)
    (h : ∀ ql', p ∈ ql.nodes → Kept pf ql ql' → ql'.Raw p → Q () ql') :
    Safely (quicklistDecompressNodeForUse pf p) Q ql := by
  unfold Safely quicklistDecompressNodeForUse
  rw [wp_bind, wp_nodeAt]
  split
  case isFalse => decide
  case isTrue hp =>
    rcases hzl : (ql.node p).zl with zl | c
    · refine h ql hp (.refl ql) ?_
      unfold QuickList.Raw
      rw [hzl]
      trivial
    · dsimp only
      rw [wp_bind]
      refine decompress_kept hready fun ql₁ hp hk hraw => ?_
      rw [wp_bind, wp_nodeAt, if_pos (hk.nodes ▸ hp), wp_setNode]
      refine h _ hp (hk.trans (.setNode id fun _ => sound_of_raw hraw)) ?_
      unfold QuickList.Raw
      rw [setNode_same]
      exact hraw

/-! ## Closing a node -/

theorem Kempt.recoded (h : Kempt pf ql) (hrec : Recoded pf ql ql')
    (hshort : ql.compress = 0 ∨ ql.nodes.length < ql.compress * 2 →
      ∀ p ∈ ql.nodes, ql'.Raw p) (hends : OpenEnds ql') : Kempt pf ql' where
  toReady := h.toReady.recoded hrec
  fresh p hp := hrec.fresh ▸ h.fresh p (hrec.nodes ▸ hp)
  depth := hrec.compress ▸ h.depth
  short hs p hp := hshort (by rwa [hrec.nodes, hrec.compress] at hs) p (hrec.nodes ▸ hp)
  ends := hends

theorem Tidy.recoded (h : Tidy pf ql) (hrec : Recoded pf ql ql') (hk : Kempt pf ql') :
    Tidy pf ql' where
  toKempt := hk
  len := by rw [hrec.len, hrec.nodes, h.len]
  small := hrec.nodes ▸ h.small

/-- Closing a node because of its flag, which is not marked. -/
theorem recompress_kempt {Q : Unit → QuickList → Prop} (h : Kempt pf ql)
    (hQ : ∀ ql', Recoded pf ql ql' → Kempt pf ql' → Q () ql') :
    Safely (recompress pf p) Q ql := by
  unfold Safely recompress
  simp only [wp_bind, wp_get, wp_mark]
  split
  case isTrue => trivial
  case isFalse hmark =>
    rw [decide_eq_true_eq, not_and'] at hmark
    refine wp_compressNode (fun _ => by decide) (.inl (by decide)) fun ql' hp hclosed => ?_
    by_cases hcomp : Compressible pf (ql.node p)
    · have hinner := hmark hcomp
      unfold QuickList.Exposed at hinner
      push Not at hinner
      obtain ⟨hc, hmany, hhead, htail⟩ := hinner
      refine hQ ql' hclosed.toRecoded (h.recoded hclosed.toRecoded (fun hs => ?_) fun q hq => ?_)
      · omega
      · rw [hclosed.toRecoded.head, hclosed.toRecoded.tail] at hq
        have hqp : q ≠ p := by
          rintro rfl
          exact hq.elim hhead htail
        unfold QuickList.Raw
        rw [hclosed.other q hqp]
        exact h.ends q hq
    · have := hclosed.same hcomp
      rw [this]
      exact hQ ql (.refl ql) h

/-- After a sweep with a count that is not too large. -/
theorem Kempt.swept (h : Kempt pf ql) (hlen : ql.len ≤ ql.nodes.length) (hrec : Recoded pf ql ql')
    (hswept : Swept ql ql') : Kempt pf ql' := by
  rcases hswept with ⟨_, rfl⟩ | ⟨_, hmany, hends, _⟩
  · exact h
  · exact h.recoded hrec (fun hs => by omega) hends

theorem quicklistCompress_kempt {Q : Unit → QuickList → Prop} (h : Kempt pf ql)
    (hlen : ql.len ≤ ql.nodes.length) (hQ : ∀ ql', Recoded pf ql ql' → Kempt pf ql' → Q () ql') :
    Safely (quicklistCompress pf p) Q ql := by
  unfold Safely quicklistCompress
  rw [wp_bind, wp_nodeAt]
  split
  case isFalse => decide
  case isTrue hp =>
    rw [wp_ite]
    split
    · exact recompress_kempt h hQ
    · exact wp_quicklistCompressTo h.toReady (fun q hq => Option.some.inj hq ▸ hp) (by omega)
        (.inl (by decide)) fun ql' hrec hswept => hQ ql' hrec (h.swept hlen hrec hswept)

theorem quicklistCompress_tidy (h : Tidy pf ql) :
    Safely (quicklistCompress pf p) (fun _ ql' => Tidy pf ql') ql :=
  quicklistCompress_kempt h.toKempt (Nat.le_of_eq h.len) fun _ hrec hk => h.recoded hrec hk

theorem quicklistRecompressOnly_tidy (h : Tidy pf ql) :
    Safely (quicklistRecompressOnly pf p) (fun _ ql' => Tidy pf ql') ql := by
  unfold Safely quicklistRecompressOnly
  rw [wp_bind, wp_nodeAt]
  split
  · rw [wp_ite, wp_pure]
    split
    · exact recompress_kempt h.toKempt fun _ hrec hk => h.recoded hrec hk
    · exact h
  · decide

/-! ## Linking and unlinking -/

theorem insertBeside_perm {l : List Nat} {old new : Nat} {after : Bool} (hold : old ∈ l) :
    (insertBeside l old new after).Perm (new :: l) := by
  have hlt := List.idxOf_lt_length_of_mem hold
  unfold insertBeside
  refine List.perm_insertIdx new l ?_
  split <;> omega

theorem head?_insertIdx {l : List Nat} {i new : Nat} (h : (l.insertIdx i new).head? = some q) :
    q = new ∨ l.head? = some q := by
  rw [List.head?_eq_getElem?, List.getElem?_insertIdx] at h
  split at h
  · rw [List.head?_eq_getElem?]
    exact .inr h
  · split at h
    · split at h
      · exact .inl (Option.some.inj h).symm
      · cases h
    · omega

theorem getLast?_insertIdx {l : List Nat} {i new : Nat}
    (h : (l.insertIdx i new).getLast? = some q) : q = new ∨ l.getLast? = some q := by
  rw [List.getLast?_eq_getElem?, List.getElem?_insertIdx, List.length_insertIdx] at h
  rw [List.getLast?_eq_getElem?]
  by_cases hi : i ≤ l.length
  · rw [if_pos hi, Nat.add_sub_cancel] at h
    split at h
    · rw [List.getElem?_eq_none (by omega)] at h
      cases h
    · split at h
      · rw [if_pos (by omega)] at h
        exact .inl (Option.some.inj h).symm
      · exact .inr h
  · rw [if_neg hi] at h
    split at h
    · exact .inr h
    · split at h
      · rw [if_neg (by omega)] at h
        cases h
      · omega

theorem linkNode_node {nodes : List Nat} {new : QuicklistNode} :
    (linkNode ql nodes new).node ql.fresh = new := if_pos rfl

theorem linkNode_other {nodes : List Nat} {new : QuicklistNode} (h : q ≠ ql.fresh) :
    (linkNode ql nodes new).node q = ql.node q := if_neg h

/-- The list with a new node linked; the counter is that of before. -/
theorem Kempt.linked {nodes : List Nat} {new : QuicklistNode} (h : Kempt pf ql)
    (hperm : nodes.Perm (ql.fresh :: ql.nodes)) (hraw : new.zl.IsRaw)
    (hhead : ∀ q, nodes.head? = some q → q = ql.fresh ∨ ql.head = some q)
    (htail : ∀ q, nodes.getLast? = some q → q = ql.fresh ∨ ql.tail = some q) :
    Kempt pf (linkNode ql nodes new) := by
  have hmem : ∀ q ∈ nodes, q = ql.fresh ∨ q ∈ ql.nodes := fun q hq =>
    List.mem_cons.mp (hperm.subset hq)
  have hold : ∀ q ∈ ql.nodes, q ≠ ql.fresh := fun q hq => Nat.ne_of_lt (h.fresh q hq)
  have hnew : (linkNode ql nodes new).Raw ql.fresh := by
    unfold QuickList.Raw
    rwa [linkNode_node]
  have hkeep : ∀ q ∈ ql.nodes, ql.Raw q → (linkNode ql nodes new).Raw q := by
    intro q hq hraw
    unfold QuickList.Raw
    rwa [linkNode_other (hold q hq)]
  constructor
  · constructor
    · rw [show (linkNode ql nodes new).nodes = nodes from rfl, hperm.nodup_iff]
      exact List.nodup_cons.mpr ⟨fun hmem => hold _ hmem rfl, h.nodup⟩
    · intro q hq
      rcases hmem q hq with rfl | hq
      · exact sound_of_raw hnew
      · rw [linkNode_other (hold q hq)]
        exact h.sound q hq
  · intro q hq
    rcases hmem q hq with rfl | hq
    · exact Nat.lt_succ_self _
    · exact Nat.lt_succ_of_lt (h.fresh q hq)
  · exact h.depth
  · intro hshort q hq
    rcases hmem q hq with rfl | hq
    · exact hnew
    · have hlen : nodes.length = ql.nodes.length + 1 := hperm.length_eq
      refine hkeep q hq (h.short (hshort.imp_right fun hs => ?_) q hq)
      have hs : nodes.length < ql.compress * 2 := hs
      omega
  · intro q hq
    rcases hq with hq | hq
    · rcases hhead q hq with rfl | hq
      · exact hnew
      · exact hkeep q (List.mem_of_head? hq) (h.ends q (.inl hq))
    · rcases htail q hq with rfl | hq
      · exact hnew
      · exact hkeep q (List.mem_of_getLast? hq) (h.ends q (.inr hq))

/-- The counter after a node was linked. -/
theorem incrLen_tidy (h : Kempt pf ql) (hlen : ql.len + 1 = ql.nodes.length)
    (hsmall : ql.len < 2 ^ 32) : Safely incrLen (fun _ ql' => Tidy pf ql') ql := by
  unfold Safely incrLen
  simp only [wp_bind, wp_get, wp_mark, wp_modify]
  split
  case isTrue => trivial
  case isFalse hwrap =>
    have hwrap : ¬ ql.len + 1 = 2 ^ 32 := by simpa using hwrap
    have hlen' : toUInt ((ql.len + 1 : Nat) : Int) = ql.len + 1 := toUInt_eq (by omega)
    refine ⟨⟨⟨h.nodup, h.sound⟩, h.fresh, h.depth, h.short, h.ends⟩, ?_, ?_⟩
    · exact hlen'.trans hlen
    · show ql.nodes.length < 2 ^ 32
      omega

theorem quicklistInsertNode_tidy {old : Option Nat} {new : QuicklistNode} {after : Bool}
    (h : Tidy pf ql) (hraw : new.zl.IsRaw) :
    Safely (quicklistInsertNode pf old new after) (fun _ ql' => Tidy pf ql') ql := by
  unfold Safely quicklistInsertNode
  rw [wp_bind, wp_get]
  have hlen := h.len
  have hsmall := h.small
  rcases old with _ | p
  · dsimp only
    rw [wp_ite, wp_fail]
    split
    case isFalse => decide
    case isTrue hempty =>
      simp only [wp_bind, wp_set, wp_pure]
      refine wp_mono (incrLen_tidy (h.toKempt.linked ?_ hraw ?_ ?_) ?_
        (by show ql.len < _; omega)) fun _ _ ht => ht
      · rw [hempty.2]
      · exact fun q hq => .inl (Option.some.inj hq).symm
      · exact fun q hq => .inl (Option.some.inj hq).symm
      · show ql.len + 1 = 1
        rw [hempty.1]
  · dsimp only
    rw [wp_bind, wp_nodeAt]
    split
    case isFalse => decide
    case isTrue hp =>
      rw [wp_ite, wp_fail]
      split
      case isTrue => decide
      case isFalse =>
        have hperm := @insertBeside_perm _ _ ql.fresh after hp
        have hmany : (insertBeside ql.nodes p ql.fresh after).length = ql.nodes.length + 1 :=
          hperm.length_eq
        simp only [wp_bind, wp_set, wp_pure]
        refine quicklistCompress_kempt
          (h.toKempt.linked hperm hraw (fun q => head?_insertIdx) fun q => getLast?_insertIdx)
          (by show ql.len ≤ (insertBeside ql.nodes p ql.fresh after).length; omega)
          fun ql₁ hrec hk => ?_
        have hlen₁ : ql₁.len = ql.len := hrec.len
        have hnodes₁ : ql₁.nodes = insertBeside ql.nodes p ql.fresh after := hrec.nodes
        refine wp_mono (incrLen_tidy hk ?_ (by omega)) fun _ _ ht => ht
        rw [hlen₁, hnodes₁, hmany, hlen]

/-- After the sweep that follows the unlinking of a node. -/
theorem Tidy.erased (h : Tidy pf ql) (hrec : Recoded pf { ql with nodes := ql.nodes.erase p } ql')
    (hswept : Swept { ql with nodes := ql.nodes.erase p } ql') : Kempt pf ql' := by
  have hready : Ready pf { ql with nodes := ql.nodes.erase p } :=
    ⟨h.nodup.erase p, fun q hq => h.sound q (List.mem_of_mem_erase hq)⟩
  have hnodes : ql'.nodes = ql.nodes.erase p := hrec.nodes
  have hcompress : ql'.compress = ql.compress := hrec.compress
  have hfresh : ql'.fresh = ql.fresh := hrec.fresh
  have hopen : (ql.compress = 0 ∨ (ql.nodes.erase p).length < ql.compress * 2 →
      ∀ q ∈ ql.nodes.erase p, ql'.Raw q) ∧ OpenEnds ql' := by
    rcases hswept with ⟨hskip, rfl⟩ | ⟨hc, hmany, hends, hall⟩
    · have hall : ∀ q ∈ ql.nodes.erase p, ql.Raw q := fun q hq =>
        h.short (h.len ▸ hskip) q (List.mem_of_mem_erase hq)
      refine ⟨fun _ => hall, fun q hq => hall q ?_⟩
      exact hq.elim List.mem_of_head? List.mem_of_getLast?
    · exact ⟨fun hs => hall (hs.resolve_left hc), hends⟩
  refine ⟨hready.recoded hrec, fun q hq => ?_, hcompress ▸ h.depth, fun hs q hq => ?_, hopen.2⟩
  · rw [hfresh]
    exact h.fresh q (List.mem_of_mem_erase (hnodes ▸ hq))
  · rw [hnodes] at hs hq
    rw [hcompress] at hs
    exact hopen.1 hs q hq

theorem quicklistDelNode_tidy (h : Tidy pf ql) :
    Safely (quicklistDelNode pf p) (fun _ ql' => Tidy pf ql') ql := by
  unfold Safely quicklistDelNode
  rw [wp_bind, wp_nodeAt]
  split
  case isFalse => decide
  case isTrue hp =>
    have hlen := h.len
    have hfew : (ql.nodes.erase p).length + 1 = ql.nodes.length := by
      rw [List.length_erase_of_mem hp]
      have := List.length_pos_of_mem hp
      omega
    have hready : Ready pf { ql with nodes := ql.nodes.erase p } :=
      ⟨h.nodup.erase p, fun q hq => h.sound q (List.mem_of_mem_erase hq)⟩
    simp only [wp_bind, wp_modify]
    refine wp_quicklistCompressTo hready
      (fun q hq => by cases hq) (by show ql.len ≤ (ql.nodes.erase p).length + 1; omega)
      (.inl (by decide)) fun ql₁ hrec hswept => ?_
    have hnodes₁ : ql₁.nodes = ql.nodes.erase p := hrec.nodes
    have hlen₁ : ql₁.len = ql.len := hrec.len
    refine addCount_kept fun ql₂ (hk : Kept pf ql₁ ql₂) => ?_
    have hkempt₂ := (h.erased hrec hswept).kept hk
    have hlen₂ : toUInt ((ql₂.len : Int) - 1) = ql₂.nodes.length := by
      rw [hk.len, hk.nodes, hnodes₁, hlen₁, hlen, ← hfew]
      have hcast : (((ql.nodes.erase p).length + 1 : Nat) : Int) - 1 =
          ((ql.nodes.erase p).length : Nat) := by omega
      rw [hcast, toUInt_eq]
      have := h.small
      omega
    refine ⟨⟨⟨hkempt₂.nodup, hkempt₂.sound⟩, hkempt₂.fresh, hkempt₂.depth, hkempt₂.short, hkempt₂.ends⟩, hlen₂, ?_⟩
    show ql₂.nodes.length < 2 ^ 32
    rw [hk.nodes, hnodes₁]
    have := h.small
    omega

/-! ## Pushing -/

theorem nodeWith_safe {value : Bytes} {whr : Where} {Q : QuicklistNode → QuickList → Prop}
    (h : ∀ node, node.zl.IsRaw → Q node ql) : Safely (nodeWith pf value whr) Q ql := by
  unfold Safely nodeWith
  simp only [wp_bind, wp_orFail, wp_pure]
  exact ⟨fun zl _ => ⟨fun sz _ => h _ trivial, fun _ => by decide⟩, fun _ => by decide⟩

theorem deref_safe {o : Option Nat} {Q : Nat → QuickList → Prop}
    (h : ∀ p, o = some p → Q p ql) : Safely (deref o) Q ql := by
  unfold Safely deref
  rw [wp_orFail]
  exact ⟨h, fun _ => by decide⟩

/-- An end that is asked for. -/
theorem Kempt.endOf (h : Kempt pf ql) {whr : Where} (hp : ql.endOf whr = some p) : ql.Raw p := by
  cases whr with
  | HEAD => exact h.ends p (.inl hp)
  | TAIL => exact h.ends p (.inr hp)

theorem pushInto_tidy {whr : Where} {value copied : Bytes} (h : Tidy pf ql) :
    Safely (pushInto pf (ql.endOf whr) whr value copied) (fun _ ql' => Tidy pf ql') ql := by
  unfold Safely pushInto
  rw [wp_bind]
  refine deref_safe fun p hp => ?_
  have hraw := h.toKempt.endOf hp
  rw [wp_bind]
  refine rawAt_safe (fun _ => hraw) fun zl _ => ?_
  simp only [wp_bind, wp_orFail]
  refine ⟨fun zl' _ => ?_, fun _ => by decide⟩
  refine setZl_kept fun ql₁ (hk₁ : Kept pf ql ql₁) hraw₁ => ?_
  exact updateSz_kept (fun _ => hraw₁) fun ql₂ (hk₂ : Kept pf ql₁ ql₂) =>
    h.kept (hk₁.trans hk₂)

theorem quicklistPushCopying_tidy {whr : Where} {value copied : Bytes} (h : Tidy pf ql) :
    Safely (quicklistPushCopying pf whr value copied) (fun _ ql' => Tidy pf ql') ql := by
  unfold Safely quicklistPushCopying
  rw [wp_bind, wp_get, wp_bind]
  have hlinked : Safely
      (if quicklistNodeAllowInsert ((ql.endOf whr).map ql.node) ql.fill value.length then
        pushInto pf (ql.endOf whr) whr value copied
      else do
        let node ← nodeWith pf value whr
        let _ ← quicklistInsertNode pf (ql.endOf whr) node (decide (whr = .TAIL)))
      (fun _ ql' => Tidy pf ql') ql := by
    unfold Safely
    rw [wp_ite]
    split
    · exact pushInto_tidy h
    · rw [wp_bind]
      refine nodeWith_safe fun node hraw => ?_
      simp only [wp_bind, wp_pure]
      exact quicklistInsertNode_tidy h hraw
  refine wp_mono hlinked fun _ ql₁ h₁ => ?_
  simp only [wp_bind, wp_get, wp_pure]
  refine addCount_kept fun ql₂ (hk₂ : Kept pf ql₁ ql₂) => ?_
  refine deref_safe fun p _ => ?_
  rw [wp_nodeAt]
  split
  · exact setCount_kept fun ql₃ (hk₃ : Kept pf ql₂ ql₃) => h₁.kept (hk₂.trans hk₃)
  · decide

theorem quicklistPush_tidy {whr : Where} {value : Bytes} (h : Tidy pf ql) :
    Safely (quicklistPush pf value whr) (fun _ ql' => Tidy pf ql') ql := by
  cases whr with
  | HEAD => exact quicklistPushCopying_tidy h
  | TAIL => exact quicklistPushCopying_tidy h

theorem quicklistAppendZiplist_tidy {zl : Bytes} (h : Tidy pf ql) :
    Safely (quicklistAppendZiplist pf zl) (fun _ ql' => Tidy pf ql') ql := by
  unfold Safely quicklistAppendZiplist
  simp only [wp_bind, wp_orFail, wp_get]
  refine ⟨fun r _ => ?_, fun _ => by decide⟩
  refine ⟨fun sz _ => ?_, fun _ => by decide⟩
  refine Safely.mono (quicklistInsertNode_tidy h trivial) fun _ ql₁ h₁ => ?_
  exact addCount_kept fun ql₂ (hk : Kept pf ql₁ ql₂) => h₁.kept hk

theorem appendValues_tidy {zl : Bytes} : ∀ (fuel : Nat) (p : Option Nat) (ql : QuickList),
    Tidy pf ql → Safely (appendValues pf zl fuel p) (fun _ ql' => Tidy pf ql') ql := by
  intro fuel
  induction fuel with
  | zero =>
      intro p ql h
      exact h
  | succ fuel ih =>
      intro p ql h
      unfold Safely appendValues
      rw [wp_bind, wp_orFail]
      refine ⟨fun value _ => ?_, fun _ => by decide⟩
      rcases value with _ | value
      · exact h
      · rcases p with _ | p
        · exact h
        · dsimp only
          rw [wp_bind]
          refine Safely.mono (quicklistPushCopying_tidy h) fun _ ql₁ h₁ => ?_
          rw [wp_bind, wp_orFail]
          exact ⟨fun next _ => ih next ql₁ h₁, fun _ => by decide⟩

theorem quicklistAppendValuesFromZiplist_tidy {zl : Bytes} (h : Tidy pf ql) :
    Safely (quicklistAppendValuesFromZiplist pf zl) (fun _ ql' => Tidy pf ql') ql := by
  unfold Safely quicklistAppendValuesFromZiplist
  rw [wp_bind, wp_orFail]
  exact ⟨fun p _ => appendValues_tidy _ p ql h, fun _ => by decide⟩

/-! ## Finding, deleting and replacing -/

theorem quicklistIndex_kept {idx : Int} {Q : Option QuicklistEntry → QuickList → Prop}
    (h : Ready pf ql) (hQ : ∀ r ql', Kept pf ql ql' →
      (∀ entry p, r = some entry → entry.node = some p → ql'.Raw p) → Q r ql') :
    Safely (quicklistIndex pf idx) Q ql := by
  unfold Safely quicklistIndex
  rw [wp_bind, wp_get]
  dsimp only
  generalize (if decide (0 ≤ idx) = true then idx.toNat else toULong (-idx - 1)) = index
  rw [wp_ite, wp_pure]
  split
  case isTrue => exact hQ none ql (.refl ql) fun entry p hr _ => by cases hr
  case isFalse =>
    generalize (if decide (0 ≤ idx) = true then ql.nodes else ql.nodes.reverse) = order
    split
    · exact hQ none ql (.refl ql) fun entry p hr _ => by cases hr
    · next p accum _ =>
        rw [wp_bind]
        refine decompressForUse_kept h fun ql₁ _ hk hraw => ?_
        rw [wp_bind]
        refine rawAt_safe (fun _ => hraw) fun zl _ => ?_
        simp only [wp_bind, wp_orFail, wp_pure]
        refine ⟨fun zi _ => ⟨fun value _ => ?_, fun _ => by decide⟩, fun _ => by decide⟩
        refine hQ _ ql₁ hk fun entry q hr hq => ?_
        obtain rfl := Option.some.inj hr
        exact Option.some.inj hq ▸ hraw

theorem quicklistDelIndex_tidy {zi : Nat} (h : Tidy pf ql) (hraw : p ∈ ql.nodes → ql.Raw p) :
    Safely (quicklistDelIndex pf p zi) (fun _ ql' => Tidy pf ql') ql := by
  unfold Safely quicklistDelIndex
  rw [wp_bind]
  refine rawAt_safe hraw fun zl _ => ?_
  simp only [wp_bind, wp_orFail, wp_pure, wp_nodeAt]
  refine ⟨fun zl' _ => ?_, fun _ => by decide⟩
  refine setZl_kept fun ql₁ (hk₁ : Kept pf ql ql₁) hraw₁ => ?_
  split
  case isFalse => decide
  case isTrue =>
    refine setCount_kept fun ql₂ (hk₂ : Kept pf ql₁ ql₂) => ?_
    have h₂ := h.kept (hk₁.trans hk₂)
    split
    case isFalse => decide
    case isTrue =>
      rw [wp_ite]
      have hdone : ∀ ql₃, Tidy pf ql₃ →
          Safely (addCount (-1)) (fun _ ql' => Tidy pf ql') ql₃ := fun ql₃ h₃ =>
        addCount_kept fun ql₄ (hk : Kept pf ql₃ ql₄) => h₃.kept hk
      split
      · exact Safely.mono (quicklistDelNode_tidy h₂) fun _ ql₃ h₃ => hdone ql₃ h₃
      · exact updateSz_kept (fun _ => hk₂.raw p hraw₁) fun ql₃ (hk₃ : Kept pf ql₂ ql₃) =>
          hdone ql₃ (h₂.kept hk₃)

theorem quicklistReplaceAtIndex_tidy {index : Int} {data : Bytes} (h : Tidy pf ql) :
    Safely (quicklistReplaceAtIndex pf index data) (fun _ ql' => Tidy pf ql') ql := by
  unfold Safely quicklistReplaceAtIndex
  rw [wp_bind]
  refine quicklistIndex_kept h.toReady fun r ql₁ hk₁ hraw₁ => ?_
  rcases r with _ | entry
  · exact h.kept hk₁
  · dsimp only
    rw [wp_bind]
    refine deref_safe fun p hp => ?_
    have hraw₁ := hraw₁ entry p rfl hp
    rw [wp_bind]
    refine deref_safe fun zi _ => ?_
    rw [wp_bind]
    refine rawAt_safe (fun _ => hraw₁) fun zl _ => ?_
    simp only [wp_bind, wp_orFail, wp_pure]
    refine ⟨fun zl₁ _ => ?_, fun _ => by decide⟩
    refine setZl_kept fun ql₂ (hk₂ : Kept pf ql₁ ql₂) hraw₂ => ?_
    refine rawAt_safe (fun _ => hraw₂) fun zl _ => ?_
    refine ⟨fun zl₂ _ => ?_, fun _ => by decide⟩
    refine setZl_kept fun ql₃ (hk₃ : Kept pf ql₂ ql₃) hraw₃ => ?_
    refine updateSz_kept (fun _ => hraw₃) fun ql₄ (hk₄ : Kept pf ql₃ ql₄) => ?_
    exact quicklistCompress_tidy (h.kept (((hk₁.trans hk₂).trans hk₃).trans hk₄))

theorem quicklistPop_tidy {whr : Where} (h : Tidy pf ql) :
    Safely (quicklistPop pf whr) (fun _ ql' => Tidy pf ql') ql := by
  unfold Safely quicklistPop
  rw [wp_bind, wp_get, wp_ite, wp_pure]
  split
  case isTrue => exact h
  case isFalse =>
    split
    · exact h
    · next p hp =>
        have hraw := h.toKempt.endOf hp
        rw [wp_bind]
        refine rawAt_safe (fun _ => hraw) fun zl _ => ?_
        simp only [wp_bind, wp_orFail]
        refine ⟨fun zi _ => ⟨fun value _ => ?_, fun _ => by decide⟩, fun _ => by decide⟩
        rcases value with _ | value
        · exact h
        · simp only [wp_bind, wp_pure]
          exact deref_safe fun zi _ => quicklistDelIndex_tidy h fun _ => hraw

theorem quicklistRotate_tidy {late : Nat → UInt8} (h : Tidy pf ql) :
    Safely (quicklistRotate pf late) (fun _ ql' => Tidy pf ql') ql := by
  unfold Safely quicklistRotate
  rw [wp_bind, wp_get, wp_ite, wp_pure]
  split
  case isTrue => exact h
  case isFalse =>
    rw [wp_bind]
    refine deref_safe fun p hp => ?_
    rw [wp_bind]
    refine rawAt_safe (fun _ => h.ends p (.inr hp)) fun zl _ => ?_
    simp only [wp_bind, wp_orFail, wp_get]
    refine ⟨fun zi _ => ⟨fun value _ => ⟨fun value _ => ?_, fun _ => by decide⟩,
      fun _ => by decide⟩, fun _ => by decide⟩
    refine Safely.mono (quicklistPushCopying_tidy h) fun _ ql₁ h₁ => ?_
    refine deref_safe fun q hq => ?_
    have hraw₁ := h₁.ends q (.inr hq)
    have hdel : ∀ zi, wp True (fun e => e ≠ Fault.lzf) (deref zi)
        (fun zi ql' => wp True (fun e => e ≠ Fault.lzf) (quicklistDelIndex pf q zi)
          (fun _ ql'' => Tidy pf ql'') ql') ql₁ := fun zi =>
      deref_safe fun zi _ => quicklistDelIndex_tidy h₁ fun _ => hraw₁
    rw [wp_ite, wp_pure]
    split
    · rw [wp_bind]
      refine rawAt_safe (fun _ => hraw₁) fun zl _ => ?_
      rw [wp_orFail]
      exact ⟨fun zi _ => hdel zi, fun _ => by decide⟩
    · exact hdel zi

theorem delFromNode_tidy {offset : Int} {del : Nat} (h : Tidy pf ql) :
    Safely (delFromNode pf p offset del) (fun _ ql' => Tidy pf ql') ql := by
  unfold Safely delFromNode
  rw [wp_bind]
  refine decompressForUse_kept h.toReady fun ql₁ _ hk₁ hraw₁ => ?_
  rw [wp_bind]
  refine rawAt_safe (fun _ => hraw₁) fun zl _ => ?_
  simp only [wp_bind, wp_orFail, wp_nodeAt]
  refine ⟨fun zl' _ => ?_, fun _ => by decide⟩
  refine setZl_kept fun ql₂ (hk₂ : Kept pf ql₁ ql₂) hraw₂ => ?_
  refine updateSz_kept (fun _ => hraw₂) fun ql₃ (hk₃ : Kept pf ql₂ ql₃) => ?_
  split
  case isFalse => decide
  case isTrue =>
    refine setCount_kept fun ql₄ (hk₄ : Kept pf ql₃ ql₄) => ?_
    refine addCount_kept fun ql₅ (hk₅ : Kept pf ql₄ ql₅) => ?_
    have h₅ := h.kept ((((hk₁.trans hk₂).trans hk₃).trans hk₄).trans hk₅)
    split
    case isFalse => decide
    case isTrue =>
      rw [wp_ite]
      split
      · exact quicklistDelNode_tidy h₅
      · exact quicklistRecompressOnly_tidy h₅

theorem delRangeLoop_tidy : ∀ (fuel extent : Nat) (offset : Int) (p : Option Nat)
    (ql : QuickList), Tidy pf ql →
    Safely (delRangeLoop pf fuel extent offset p) (fun _ ql' => Tidy pf ql') ql := by
  intro fuel
  induction fuel with
  | zero =>
      intro extent offset p ql h
      unfold Safely delRangeLoop
      rw [wp_fail]
      decide
  | succ fuel ih =>
      intro extent offset p ql h
      unfold Safely delRangeLoop
      rw [wp_ite, wp_pure]
      split
      case isTrue => exact h
      case isFalse =>
        rw [wp_bind]
        refine deref_safe fun p _ => ?_
        simp only [wp_bind, wp_nextOf, wp_nodeAt]
        split
        case isFalse => decide
        case isTrue =>
          rw [wp_ite]
          split
          · rw [wp_bind]
            exact Safely.mono (quicklistDelNode_tidy h) fun _ ql₁ h₁ => ih _ _ _ ql₁ h₁
          · rw [wp_bind]
            exact Safely.mono (delFromNode_tidy h) fun _ ql₁ h₁ => ih _ _ _ ql₁ h₁

theorem quicklistDelRange_tidy {start count : Int} (h : Tidy pf ql) :
    Safely (quicklistDelRange pf start count) (fun _ ql' => Tidy pf ql') ql := by
  unfold Safely quicklistDelRange
  rw [wp_ite, wp_pure]
  split
  case isTrue => exact h
  case isFalse =>
    rw [wp_bind, wp_get, wp_bind]
    refine quicklistIndex_kept h.toReady fun r ql₁ hk₁ _ => ?_
    rcases r with _ | entry
    · exact h.kept hk₁
    · simp only [wp_bind, wp_get, wp_pure]
      exact delRangeLoop_tidy _ _ _ _ ql₁ (h.kept hk₁)

/-! ## Inserting -/

theorem nodeOpt_safe {o : Option Nat} {Q : Option QuicklistNode → QuickList → Prop}
    (h : ∀ node, Q node ql) : Safely (nodeOpt o) Q ql := by
  unfold Safely nodeOpt
  rcases o with _ | p
  · exact h none
  · simp only [wp_bind, wp_nodeAt, wp_pure]
    split
    · exact h _
    · decide

theorem quicklistZiplistMerge_tidy {a b : Nat} (h : Tidy pf ql) :
    Safely (quicklistZiplistMerge pf a b) (fun _ ql' => Tidy pf ql') ql := by
  unfold Safely quicklistZiplistMerge
  rw [wp_bind]
  refine decompress_kept h.toReady fun ql₁ _ hk₁ hraw₁ => ?_
  rw [wp_bind]
  refine decompress_kept (h.kept hk₁).toReady fun ql₂ _ hk₂ hraw₂ => ?_
  have hrawa := hk₂.raw a hraw₁
  rw [wp_bind]
  refine rawAt_safe (fun _ => hrawa) fun zla _ => ?_
  rw [wp_bind]
  refine rawAt_safe (fun _ => hraw₂) fun zlb _ => ?_
  simp only [wp_bind, wp_orFail, wp_pure]
  refine ⟨fun r _ => ⟨fun r' _ => ?_, fun _ => by decide⟩, fun _ => by decide⟩
  refine setZl_kept fun ql₃ (hk₃ : Kept pf ql₂ ql₃) hraw₃ => ?_
  refine setCount_kept fun ql₄ (hk₄ : Kept pf ql₃ ql₄) => ?_
  refine updateSz_kept (fun _ => hk₄.raw _ hraw₃) fun ql₅ (hk₅ : Kept pf ql₄ ql₅) => ?_
  refine setCount_kept fun ql₆ (hk₆ : Kept pf ql₅ ql₆) => ?_
  have hk := ((((hk₁.trans hk₂).trans hk₃).trans hk₄).trans hk₅).trans hk₆
  refine Safely.mono (quicklistDelNode_tidy (h.kept hk)) fun _ ql₇ h₇ => ?_
  exact quicklistCompress_tidy h₇

theorem tryMerge_tidy {a b left right : Option Nat} (h : Tidy pf ql) :
    Safely (tryMerge pf a b left right) (fun _ ql' => Tidy pf ql') ql := by
  unfold Safely tryMerge mergeAllowed
  simp only [wp_bind, wp_get, wp_ite, wp_pure]
  refine nodeOpt_safe fun node => ?_
  refine nodeOpt_safe fun node' => ?_
  split
  · exact deref_safe fun p _ => deref_safe fun q _ => quicklistZiplistMerge_tidy h
  · exact h

theorem link_safe {Q : Option Nat → QuickList → Prop} (h : ∀ o, Q o ql) :
    Safely (nextOf (some p)) Q ql ∧ Safely (prevOf (some p)) Q ql := by
  unfold Safely
  rw [wp_nextOf, wp_prevOf]
  constructor
  · split
    · exact h _
    · decide
  · split
    · exact h _
    · decide

theorem linkOf_safe {o : Option Nat} {Q : Option Nat → QuickList → Prop} (h : ∀ o, Q o ql) :
    Safely (linkOf nextOf o) Q ql ∧ Safely (linkOf prevOf o) Q ql := by
  rcases o with _ | p
  · exact ⟨h none, h none⟩
  · exact link_safe h

theorem quicklistMergeNodes_tidy (h : Tidy pf ql) :
    Safely (quicklistMergeNodes pf p) (fun _ ql' => Tidy pf ql') ql := by
  unfold Safely quicklistMergeNodes
  simp only [wp_bind, wp_pure]
  refine (link_safe fun prev => ?_).2
  refine (linkOf_safe fun prevPrev => ?_).2
  refine (link_safe fun next => ?_).1
  refine (linkOf_safe fun nextNext => ?_).1
  refine Safely.mono (tryMerge_tidy h) fun _ ql₁ h₁ => ?_
  refine Safely.mono (tryMerge_tidy h₁) fun _ ql₂ h₂ => ?_
  refine (link_safe fun prev => ?_).2
  refine Safely.mono (tryMerge_tidy h₂) fun merged ql₃ h₃ => ?_
  refine (link_safe fun next => ?_).1
  exact tryMerge_tidy h₃

theorem quicklistSplitNode_kept {offset : Int} {after : Bool} {Q : Bytes × Nat → QuickList → Prop}
    (hraw : p ∈ ql.nodes → ql.Raw p) (hQ : ∀ r ql', Kept pf ql ql' → Q r ql') :
    Safely (quicklistSplitNode pf p offset after) Q ql := by
  unfold Safely quicklistSplitNode
  rw [wp_bind]
  refine rawAt_safe hraw fun zl hp => ?_
  simp only [wp_bind, wp_orFail, wp_nodeAt, wp_pure]
  rw [if_pos hp]
  refine ⟨fun copy _ => ⟨fun zl₁ _ => ⟨fun r₁ _ => ?_, fun _ => by decide⟩,
    fun _ => by decide⟩, fun _ => by decide⟩
  refine setZl_kept fun ql₁ (hk₁ : Kept pf ql ql₁) hraw₁ => ?_
  refine setCount_kept fun ql₂ (hk₂ : Kept pf ql₁ ql₂) => ?_
  refine updateSz_kept (fun _ => hk₂.raw p hraw₁) fun ql₃ (hk₃ : Kept pf ql₂ ql₃) => ?_
  exact ⟨fun zl₂ _ => ⟨fun r₂ _ => hQ _ ql₃ ((hk₁.trans hk₂).trans hk₃),
    fun _ => by decide⟩, fun _ => by decide⟩

theorem insertInto_tidy {edit : Bytes → Option Bytes} (h : Tidy pf ql) :
    Safely (insertInto pf p edit) (fun _ ql' => Tidy pf ql') ql := by
  unfold Safely insertInto
  rw [wp_bind]
  refine decompressForUse_kept h.toReady fun ql₁ _ hk₁ hraw₁ => ?_
  rw [wp_bind]
  refine rawAt_safe (fun _ => hraw₁) fun zl _ => ?_
  simp only [wp_bind, wp_orFail, wp_nodeAt]
  refine ⟨fun zl' _ => ?_, fun _ => by decide⟩
  refine setZl_kept fun ql₂ (hk₂ : Kept pf ql₁ ql₂) hraw₂ => ?_
  split
  case isFalse => decide
  case isTrue =>
    refine setCount_kept fun ql₃ (hk₃ : Kept pf ql₂ ql₃) => ?_
    refine updateSz_kept (fun _ => hk₃.raw p hraw₂) fun ql₄ (hk₄ : Kept pf ql₃ ql₄) => ?_
    exact quicklistRecompressOnly_tidy
      (h.kept (((hk₁.trans hk₂).trans hk₃).trans hk₄))

theorem insertFirst_tidy {value : Bytes} {after : Bool} (h : Tidy pf ql) :
    Safely (insertFirst pf value after) (fun _ ql' => Tidy pf ql') ql := by
  unfold Safely insertFirst
  simp only [wp_bind, wp_orFail, wp_nodeAt]
  refine ⟨fun zl _ => ?_, fun _ => by decide⟩
  refine Safely.mono (quicklistInsertNode_tidy h trivial) fun new ql₁ h₁ => ?_
  split
  case isFalse => decide
  case isTrue =>
    refine setCount_kept fun ql₂ (hk₂ : Kept pf ql₁ ql₂) => ?_
    exact addCount_kept fun ql₃ (hk₃ : Kept pf ql₂ ql₃) => h₁.kept (hk₂.trans hk₃)

theorem insertSplitting_tidy {offset : Int} {value : Bytes} {after : Bool} (h : Tidy pf ql) :
    Safely (insertSplitting pf p offset value after) (fun _ ql' => Tidy pf ql') ql := by
  unfold Safely insertSplitting
  rw [wp_bind]
  refine decompressForUse_kept h.toReady fun ql₁ _ hk₁ hraw₁ => ?_
  rw [wp_bind]
  refine quicklistSplitNode_kept (fun _ => hraw₁) fun r ql₂ (hk₂ : Kept pf ql₁ ql₂) => ?_
  simp only [wp_bind, wp_orFail]
  refine ⟨fun zl _ => ⟨fun sz _ => ?_, fun _ => by decide⟩, fun _ => by decide⟩
  have h₂ := h.kept (hk₁.trans hk₂)
  refine Safely.mono (quicklistInsertNode_tidy h₂ trivial) fun _ ql₃ h₃ => ?_
  exact quicklistMergeNodes_tidy h₃

theorem quicklistInsert_tidy {entry : QuicklistEntry} {value : Bytes} {after : Bool}
    (h : Tidy pf ql) :
    Safely (quicklistInsert pf entry value after) (fun _ ql' => Tidy pf ql') ql := by
  unfold Safely quicklistInsert
  rw [wp_bind, wp_get]
  rcases hnode : entry.node with _ | p
  · exact insertFirst_tidy h
  · simp only [wp_bind, wp_nodeAt]
    split
    case isFalse => decide
    case isTrue =>
      refine (link_safe fun next => ?_).1
      refine nodeOpt_safe fun nextNode => ?_
      refine (link_safe fun prev => ?_).2
      refine nodeOpt_safe fun prevNode => ?_
      -- each way to insert leaves a tidy list, and then the elements are counted
      refine Safely.mono (Q := fun _ ql' => Tidy pf ql') ?_ fun _ ql₁ h₁ =>
        addCount_kept fun ql₂ (hk₂ : Kept pf ql₁ ql₂) => h₁.kept hk₂
      unfold Safely
      simp only [wp_ite, wp_bind, wp_pure]
      split
      · exact deref_safe fun zi _ => insertInto_tidy h
      · split
        · exact deref_safe fun zi _ => insertInto_tidy h
        · split
          · exact deref_safe fun next _ => insertInto_tidy h
          · split
            · exact deref_safe fun prev _ => insertInto_tidy h
            · split
              · exact nodeWith_safe fun new hraw => quicklistInsertNode_tidy h hraw
              · exact insertSplitting_tidy h

theorem insertAtIndex_tidy {idx : Int} {value : Bytes} {after : Bool} (h : Tidy pf ql) :
    Safely (insertAtIndex pf idx value after) (fun _ ql' => Tidy pf ql') ql := by
  unfold Safely insertAtIndex
  rw [wp_bind]
  refine quicklistIndex_kept h.toReady fun r ql₁ hk₁ _ => ?_
  have h₁ := h.kept hk₁
  rcases r with _ | entry
  · simp only [wp_bind, wp_get, wp_ite, wp_pure]
    split
    · exact quicklistInsert_tidy h₁
    · exact h₁
  · exact quicklistInsert_tidy h₁

/-! ## Iterators -/

/-- The node that an iterator stands in, and that of an entry, is open. -/
def IterOpen (iter : QuicklistIter) (ql : QuickList) : Prop :=
  ∀ p zi, iter.current = some p → iter.zi = some zi → ql.Raw p

def EntryOpen (entry : QuicklistEntry) (ql : QuickList) : Prop :=
  ∀ p, entry.node = some p → ql.Raw p

theorem advance_kept {iter : QuicklistIter} {Q : QuicklistIter → QuickList → Prop}
    (h : Ready pf ql) (hiter : ∀ zi, iter.zi = some zi → ql.Raw p)
    (hQ : ∀ iter' ql', Kept pf ql ql' → ql'.Raw p → iter'.current = iter.current →
      iter'.direction = iter.direction → Q iter' ql') :
    Safely (advance pf p iter) Q ql := by
  unfold Safely advance
  rcases hzi : iter.zi with _ | zi
  · dsimp only
    rw [wp_bind]
    refine decompressForUse_kept h fun ql₁ _ hk₁ hraw₁ => ?_
    rw [wp_bind]
    refine rawAt_safe (fun _ => hraw₁) fun zl _ => ?_
    simp only [wp_bind, wp_orFail, wp_pure]
    exact ⟨fun zi _ => hQ _ ql₁ hk₁ hraw₁ rfl rfl, fun _ => by decide⟩
  · have hraw := hiter zi hzi
    dsimp only
    rw [wp_bind]
    refine rawAt_safe (fun _ => hraw) fun zl _ => ?_
    rcases hdir : iter.direction
    · simp only [wp_bind, wp_orFail, wp_pure]
      exact ⟨fun zi _ => hQ _ ql (.refl ql) hraw rfl hdir.symm, fun _ => by decide⟩
    · simp only [wp_bind, wp_orFail, wp_pure]
      exact ⟨fun zi _ => hQ _ ql (.refl ql) hraw rfl hdir.symm, fun _ => by decide⟩

theorem quicklistNextLoop_tidy : ∀ (fuel : Nat) (iter : QuicklistIter) (ql : QuickList),
    Tidy pf ql → IterOpen iter ql →
    Safely (quicklistNextLoop pf fuel iter) (fun r ql' => Tidy pf ql' ∧ IterOpen r.1 ql' ∧
      EntryOpen r.2.1 ql') ql := by
  intro fuel
  induction fuel with
  | zero =>
      intro iter ql _ _
      unfold Safely quicklistNextLoop
      rw [wp_fail]
      decide
  | succ fuel ih =>
      intro iter ql h hiter
      unfold Safely quicklistNextLoop
      rcases hcur : iter.current with _ | p
      · exact ⟨h, hiter, fun p hp => by cases hp⟩
      · dsimp only
        rw [wp_bind]
        refine advance_kept h.toReady (fun zi hzi => hiter p zi hcur hzi)
          fun iter₁ ql₁ (hk₁ : Kept pf ql ql₁) hraw₁ hcur₁ hdir₁ => ?_
        have h₁ := h.kept hk₁
        rcases hzi₁ : iter₁.zi with _ | zi
        · simp only [wp_bind]
          refine Safely.mono (quicklistCompress_tidy h₁) fun _ ql₂ h₂ => ?_
          have hgo : ∀ current offset,
              Safely (quicklistNextLoop pf fuel
                { iter₁ with current := current, offset := offset, zi := none })
                (fun r ql' => Tidy pf ql' ∧ IterOpen r.1 ql' ∧ EntryOpen r.2.1 ql') ql₂ :=
            fun current offset => ih _ ql₂ h₂ fun p zi _ hz => by cases hz
          unfold jump
          rcases hdir : iter₁.direction
          · simp only [wp_bind, wp_pure]
            refine (link_safe fun next => ?_).1
            have := hgo next 0
            rwa [hdir] at this
          · simp only [wp_bind, wp_pure]
            refine (link_safe fun prev => ?_).2
            have := hgo prev (-1)
            rwa [hdir] at this
        · dsimp only
          rw [wp_bind]
          refine rawAt_safe (fun _ => hraw₁) fun zl _ => ?_
          simp only [wp_bind, wp_orFail, wp_pure]
          refine ⟨fun value _ => ⟨h₁, fun q zi' hq _ => ?_, fun q hq => ?_⟩, fun _ => by decide⟩
          · rw [hcur₁, hcur] at hq
            exact Option.some.inj hq ▸ hraw₁
          · exact Option.some.inj hq ▸ hraw₁

theorem quicklistNext_tidy {iter : QuicklistIter} (h : Tidy pf ql) (hiter : IterOpen iter ql) :
    Safely (quicklistNext pf iter) (fun r ql' => Tidy pf ql' ∧ IterOpen r.1 ql' ∧
      EntryOpen r.2.1 ql') ql := by
  unfold Safely quicklistNext
  rw [wp_bind, wp_get]
  exact quicklistNextLoop_tidy _ iter ql h hiter

theorem quicklistDelEntry_tidy {iter : QuicklistIter} {entry : QuicklistEntry} (h : Tidy pf ql)
    (hentry : EntryOpen entry ql) :
    Safely (quicklistDelEntry pf iter entry) (fun iter' ql' => Tidy pf ql' ∧ IterOpen iter' ql')
      ql := by
  unfold Safely quicklistDelEntry
  rw [wp_bind]
  refine deref_safe fun p hp => ?_
  simp only [wp_bind]
  refine (link_safe fun prev => ?_).2
  refine (link_safe fun next => ?_).1
  refine deref_safe fun zi _ => ?_
  refine Safely.mono (quicklistDelIndex_tidy h fun _ => hentry p hp) fun gone ql₁ h₁ => ?_
  rw [wp_ite, wp_pure]
  split
  · rcases iter.direction
    · exact ⟨h₁, fun p zi _ hz => by cases hz⟩
    · exact ⟨h₁, fun p zi _ hz => by cases hz⟩
  · exact ⟨h₁, fun p zi _ hz => by cases hz⟩

theorem quicklistReleaseIterator_tidy {iter : QuicklistIter} (h : Tidy pf ql) :
    Safely (quicklistReleaseIterator pf iter) (fun _ ql' => Tidy pf ql') ql := by
  unfold Safely quicklistReleaseIterator
  rcases iter.current with _ | p
  · exact h
  · exact quicklistCompress_tidy h

theorem quicklistGetIteratorAtIdx_tidy {direction : Direction} {idx : Int} (h : Tidy pf ql) :
    Safely (quicklistGetIteratorAtIdx pf direction idx)
      (fun r ql' => Tidy pf ql' ∧ ∀ iter, r = some iter → IterOpen iter ql') ql := by
  unfold Safely quicklistGetIteratorAtIdx
  rw [wp_bind]
  refine quicklistIndex_kept h.toReady fun r ql₁ hk₁ _ => ?_
  rcases r with _ | entry
  · exact ⟨h.kept hk₁, fun iter hr => by cases hr⟩
  · refine ⟨h.kept hk₁, fun iter hr p zi _ hz => ?_⟩
    obtain rfl := Option.some.inj hr
    cases hz

end Quicklist

end RedisCore
