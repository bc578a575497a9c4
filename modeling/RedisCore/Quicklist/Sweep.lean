/-
# `RedisCore.Quicklist.Sweep` — what compressing and decompressing nodes does

Compressing or decompressing a node changes the form of its ziplist, and neither the links
nor the contents.  The sweep of `__quicklistCompress` works with the node count of before or
after the change that it follows, which may be one off; it opens the first and the last node
nevertheless, and all nodes if one less than twice the depth are left.
-/
import RedisCore.Quicklist.Code

namespace RedisCore

namespace Quicklist

open Marked Ziplist Splice

variable {pf : Platform} {X : Prop} {E : Fault → Prop} {ql ql' ql'' : QuickList} {p q : Nat}

/-! ## Reading and writing nodes -/

@[simp] theorem wp_nodeAt {Q : QuicklistNode → QuickList → Prop} :
    wp X E (nodeAt p) Q ql ↔ if p ∈ ql.nodes then Q (ql.node p) ql else E .freed := by
  unfold nodeAt
  rw [wp_bind, wp_get, wp_ite, wp_pure, wp_fail]

@[simp] theorem wp_setNode {node : QuicklistNode} {Q : Unit → QuickList → Prop} :
    wp X E (setNode p node) Q ql ↔ Q () (ql.setNode p node) := Iff.rfl

theorem setNode_same (node : QuicklistNode) : (ql.setNode p node).node p = node :=
  if_pos rfl

theorem setNode_other {node : QuicklistNode} (h : q ≠ p) :
    (ql.setNode p node).node q = ql.node q := if_neg h

/-- The node of an address is raw. -/
def Blob.IsRaw : Blob → Prop
  | .raw _ => True
  | .lzf _ => False

def QuickList.Raw (ql : QuickList) (p : Nat) : Prop := (ql.node p).zl.IsRaw

theorem wp_rawAt {Q : Bytes → QuickList → Prop} (hraw : p ∈ ql.nodes → ql.Raw p ∨ E .lzf)
    (hfreed : p ∉ ql.nodes → E .freed)
    (h : ∀ zl, p ∈ ql.nodes → (ql.node p).zl = .raw zl → Q zl ql) :
    wp X E (rawAt p) Q ql := by
  unfold rawAt
  rw [wp_bind, wp_nodeAt]
  split
  · next hp =>
      rcases hzl : (ql.node p).zl with zl | c
      · exact h zl hp hzl
      · refine (hraw hp).elim (fun hr => ?_) id
        unfold QuickList.Raw at hr
        rw [hzl] at hr
        exact hr.elim
  · next hp => exact hfreed hp

/-! ## The contents of a node -/

/-- The ziplist that a node stands for. -/
def Holds (pf : Platform) (node : QuicklistNode) (zl : Bytes) : Prop :=
  match node.zl with
  | .raw zl' => zl' = zl
  | .lzf c => pf.lzfCompress zl = some c ∧ zl.length = node.sz

/-- A node whose ziplist can be had. -/
def Sound (pf : Platform) (node : QuicklistNode) : Prop := ∃ zl, Holds pf node zl

/-- A node whose size is that of its ziplist. -/
def Whole (pf : Platform) (node : QuicklistNode) : Prop :=
  ∃ zl, Holds pf node zl ∧ zl.length = node.sz

theorem Whole.sound {node : QuicklistNode} (h : Whole pf node) : Sound pf node := by
  obtain ⟨zl, hzl, _⟩ := h
  exact ⟨zl, hzl⟩

/-- A node whose size is that of its ziplist, or so small that the node is left alone. -/
def Measured (pf : Platform) (node : QuicklistNode) : Prop :=
  Whole pf node ∨ node.zl.IsRaw ∧ node.sz < MIN_COMPRESS_BYTES

theorem Whole.measured {node : QuicklistNode} (h : Whole pf node) : Measured pf node := .inl h

theorem sound_of_raw {node : QuicklistNode} (h : node.zl.IsRaw) : Sound pf node := by
  rcases hzl : node.zl with zl | c
  · refine ⟨zl, ?_⟩
    unfold Holds
    rw [hzl]
  · rw [hzl] at h
    exact h.elim

/-- The same node in one form or the other. -/
structure RecodedNode (pf : Platform) (node node' : QuicklistNode) : Prop where
  count : node'.count = node.count
  sz : node'.sz = node.sz
  sound : Sound pf node → Sound pf node'
  holds : ∀ zl, Holds pf node zl → zl.length = node.sz → Holds pf node' zl
  flag : node.recompress = false → node'.recompress = false
  small : node.zl.IsRaw → node.sz < MIN_COMPRESS_BYTES → node'.zl = node.zl

theorem RecodedNode.refl (node : QuicklistNode) : RecodedNode pf node node :=
  ⟨rfl, rfl, id, fun _ h _ => h, id, fun _ _ => rfl⟩

theorem RecodedNode.trans {a b c : QuicklistNode} (h : RecodedNode pf a b)
    (h' : RecodedNode pf b c) : RecodedNode pf a c where
  count := h'.count.trans h.count
  sz := h'.sz.trans h.sz
  sound := h'.sound ∘ h.sound
  holds zl hzl hlen := h'.holds zl (h.holds zl hzl hlen) (hlen.trans h.sz.symm)
  flag := h'.flag ∘ h.flag
  small hraw hsz := by
    have hzl := h.small hraw hsz
    exact (h'.small (hzl ▸ hraw) (h.sz ▸ hsz)).trans hzl

theorem RecodedNode.whole {a b : QuicklistNode} (h : RecodedNode pf a b) (ha : Whole pf a) :
    Whole pf b := by
  obtain ⟨zl, hzl, hlen⟩ := ha
  exact ⟨zl, h.holds zl hzl hlen, hlen.trans h.sz.symm⟩

theorem RecodedNode.measured {a b : QuicklistNode} (h : RecodedNode pf a b) (ha : Measured pf a) :
    Measured pf b := by
  rcases ha with ha | ⟨hraw, hsz⟩
  · exact .inl (h.whole ha)
  · have hzl := h.small hraw hsz
    exact .inr ⟨hzl ▸ hraw, h.sz ▸ hsz⟩

/-- The same list with its nodes in one form or the other. -/
structure Recoded (pf : Platform) (ql ql' : QuickList) : Prop where
  nodes : ql'.nodes = ql.nodes
  fresh : ql'.fresh = ql.fresh
  count : ql'.count = ql.count
  len : ql'.len = ql.len
  fill : ql'.fill = ql.fill
  compress : ql'.compress = ql.compress
  node : ∀ p, RecodedNode pf (ql.node p) (ql'.node p)

theorem Recoded.refl (ql : QuickList) : Recoded pf ql ql :=
  ⟨rfl, rfl, rfl, rfl, rfl, rfl, fun _ => .refl _⟩

theorem Recoded.trans (h : Recoded pf ql ql') (h' : Recoded pf ql' ql'') :
    Recoded pf ql ql'' where
  nodes := h'.nodes.trans h.nodes
  fresh := h'.fresh.trans h.fresh
  count := h'.count.trans h.count
  len := h'.len.trans h.len
  fill := h'.fill.trans h.fill
  compress := h'.compress.trans h.compress
  node p := (h.node p).trans (h'.node p)

theorem Recoded.head (h : Recoded pf ql ql') : ql'.head = ql.head := congrArg List.head? h.nodes

theorem Recoded.tail (h : Recoded pf ql ql') : ql'.tail = ql.tail := congrArg List.getLast? h.nodes

theorem Recoded.setNode {node : QuicklistNode} (h : RecodedNode pf (ql.node p) node) :
    Recoded pf ql (ql.setNode p node) where
  nodes := rfl
  fresh := rfl
  count := rfl
  len := rfl
  fill := rfl
  compress := rfl
  node q := by
    by_cases hq : q = p
    · rw [hq, setNode_same]
      exact h
    · rw [setNode_other hq]
      exact .refl _

/-! ## Compressing a node -/

theorem squeeze_eq_some {data c : Bytes} (h : squeeze pf data = some c) :
    pf.lzfCompress data = some c := by
  unfold squeeze at h
  rcases hc : pf.lzfCompress data with _ | c'
  · rw [hc] at h
    cases h
  · rw [hc] at h
    dsimp only at h
    split at h
    · cases h
    · exact h

/-- A node is closed at most: the others are as before. -/
structure Closed (pf : Platform) (p : Nat) (ql ql' : QuickList) : Prop
    extends Recoded pf ql ql' where
  other : ∀ q, q ≠ p → ql'.node q = ql.node q
  same : ¬ Compressible pf (ql.node p) → ql' = ql
  shut : Compressible pf (ql.node p) → ¬ ql'.Raw p

theorem Closed.refl (h : ¬ Compressible pf (ql.node p)) : Closed pf p ql ql :=
  ⟨.refl ql, fun _ _ => rfl, fun _ => rfl, fun hyes => (h hyes).elim⟩

theorem length_readAt {zl data : Bytes} {i n : Nat} (h : readAt zl i n = some data) :
    data.length = n := by
  unfold readAt at h
  split at h
  · next hlen =>
      cases h
      exact length_slice hlen
  · cases h

theorem readAt_all {zl data : Bytes} (h : readAt zl 0 zl.length = some data) : data = zl := by
  unfold readAt at h
  split at h
  · cases h
    unfold slice
    rw [List.drop_zero, List.take_length]
  · cases h

theorem wp_compressNode {Q : Unit → QuickList → Prop} (hp : p ∉ ql.nodes → E .freed)
    (hmem : E .memory ∨ (p ∈ ql.nodes → Measured pf (ql.node p)))
    (h : ∀ ql', p ∈ ql.nodes → Closed pf p ql ql' → Q () ql') :
    wp X E (compressNode pf p) Q ql := by
  unfold compressNode
  rw [wp_bind, wp_nodeAt]
  split
  case isFalse hout => exact hp hout
  case isTrue hin =>
    rcases hzl : (ql.node p).zl with zl | c
    · have hiff : Compressible pf (ql.node p) ↔ MIN_COMPRESS_BYTES ≤ (ql.node p).sz ∧
          ((readAt zl 0 (ql.node p).sz).bind (squeeze pf)).isSome := by
        unfold Compressible
        rw [hzl]
      dsimp only
      rw [wp_ite, wp_pure, wp_bind, wp_orFail]
      split
      · next hsz => exact h ql hin (.refl fun hyes => Nat.not_le_of_lt hsz (hiff.mp hyes).1)
      · next hsz =>
          refine ⟨fun data hdata => ?_, fun hnone => ?_⟩
          · rw [hdata, Option.bind_some] at hiff
            rcases hc : squeeze pf data with _ | c
            · refine h ql hin (.refl fun hyes => ?_)
              rw [hc] at hiff
              cases (hiff.mp hyes).2
            · refine h _ hin ⟨.setNode ?_, fun q hq => setNode_other hq, fun hno => ?_, fun _ => ?_⟩
              · have hlen := length_readAt hdata
                have hholds : Holds pf { ql.node p with zl := .lzf c, recompress := false } data :=
                  ⟨squeeze_eq_some hc, hlen⟩
                refine ⟨rfl, rfl, fun _ => ⟨data, hholds⟩, fun zl' hzl' hlen' => ?_, fun _ => rfl,
                  fun _ hsmall => (hsz hsmall).elim⟩
                unfold Holds at hzl'
                rw [hzl] at hzl'
                dsimp only at hzl'
                rw [hzl', ← hlen'] at hdata
                rw [← readAt_all hdata]
                exact hholds
              · exact (hno (hiff.mpr ⟨Nat.le_of_not_lt hsz, by rw [hc]; rfl⟩)).elim
              · unfold QuickList.Raw
                rw [setNode_same]
                exact id
          · refine hmem.elim id (fun hmeasured => ?_)
            rcases hmeasured hin with ⟨zl', hzl', hlen⟩ | ⟨_, hsmall⟩
            · unfold Holds at hzl'
              rw [hzl] at hzl'
              dsimp only at hzl'
              unfold readAt at hnone
              rw [if_pos (by rw [hzl', hlen]; omega)] at hnone
              cases hnone
            · exact (hsz hsmall).elim
    · refine h ql hin (.refl fun hyes => ?_)
      unfold Compressible at hyes
      rw [hzl] at hyes
      exact hyes

/-! ## Decompressing a node -/

/-- A node is opened at most: the others are as before. -/
structure Opened (pf : Platform) (p : Nat) (ql ql' : QuickList) : Prop
    extends Recoded pf ql ql' where
  other : ∀ q, q ≠ p → ql'.node q = ql.node q
  raw : Sound pf (ql.node p) → ql'.Raw p

theorem wp_decompressNode {Q : Unit → QuickList → Prop} (hp : p ∉ ql.nodes → E .freed)
    (h : ∀ ql', p ∈ ql.nodes → Opened pf p ql ql' → Q () ql') :
    wp X E (decompressNode pf p) Q ql := by
  unfold decompressNode
  rw [wp_bind, wp_nodeAt]
  split
  case isFalse hout => exact hp hout
  case isTrue hin =>
    rcases hzl : (ql.node p).zl with zl | c
    · refine h ql hin ⟨.refl ql, fun _ _ => rfl, fun _ => ?_⟩
      unfold QuickList.Raw
      rw [hzl]
      trivial
    · have hinv : ∀ zl, Holds pf (ql.node p) zl →
          pf.lzfDecompress c (ql.node p).sz = some zl := by
        intro zl hholds
        unfold Holds at hholds
        rw [hzl] at hholds
        rw [← hholds.2]
        exact pf.inverse hholds.1
      dsimp only
      rcases hd : pf.lzfDecompress c (ql.node p).sz with _ | zl
      · refine h ql hin ⟨.refl ql, fun _ _ => rfl, fun hsound => ?_⟩
        obtain ⟨zl, hholds⟩ := hsound
        rw [hinv zl hholds] at hd
        cases hd
      · refine h _ hin ⟨.setNode ⟨rfl, rfl, fun _ => ⟨zl, rfl⟩, fun zl' hzl' _ => ?_, id,
          fun hraw _ => ?_⟩, fun q hq => setNode_other hq, fun _ => ?_⟩
        · rw [hinv zl' hzl'] at hd
          exact (Option.some.inj hd).symm
        · rw [hzl] at hraw
          exact hraw.elim
        · unfold QuickList.Raw
          rw [setNode_same]
          trivial

/-- What is raw stays raw where a node is opened. -/
theorem Opened.keeps (h : Opened pf p ql ql') (hsound : Sound pf (ql.node p)) (hq : ql.Raw q) :
    ql'.Raw q := by
  by_cases hqp : q = p
  · rw [hqp]
    exact h.raw hsound
  · unfold QuickList.Raw
    rw [h.other q hqp]
    exact hq

/-! ## The sweep -/

/-- A list whose nodes are different and whose ziplists can be had. -/
structure Ready (pf : Platform) (ql : QuickList) : Prop where
  nodup : ql.nodes.Nodup
  sound : ∀ p ∈ ql.nodes, Sound pf (ql.node p)

theorem Ready.recoded (h : Ready pf ql) (hr : Recoded pf ql ql') : Ready pf ql' where
  nodup := hr.nodes ▸ h.nodup
  sound p hp := (hr.node p).sound (h.sound p (hr.nodes ▸ hp))

theorem next_getElem? (h : ql.nodes.Nodup) {i : Nat} (hi : ql.nodes[i]? = some p) :
    ql.next p = ql.nodes[i + 1]? := by
  obtain ⟨hlt, rfl⟩ := List.getElem?_eq_some_iff.mp hi
  unfold QuickList.next
  rw [h.idxOf_getElem]

theorem prev_getElem? (h : ql.nodes.Nodup) {i : Nat} (hi : ql.nodes[i + 1]? = some p) :
    ql.prev p = ql.nodes[i]? := by
  obtain ⟨hlt, rfl⟩ := List.getElem?_eq_some_iff.mp hi
  unfold QuickList.prev
  rw [h.idxOf_getElem, if_neg (by omega), Nat.add_sub_cancel]

theorem head_eq : ql.head = ql.nodes[0]? := List.head?_eq_getElem?

theorem tail_eq : ql.tail = ql.nodes[ql.nodes.length - 1]? := List.getLast?_eq_getElem?

theorem wp_nextOf {Q : Option Nat → QuickList → Prop} :
    wp X E (nextOf (some p)) Q ql ↔ if p ∈ ql.nodes then Q (ql.next p) ql else E .freed := by
  unfold nextOf
  rw [wp_bind, wp_nodeAt, wp_bind, wp_get, wp_pure]

theorem wp_prevOf {Q : Option Nat → QuickList → Prop} :
    wp X E (prevOf (some p)) Q ql ↔ if p ∈ ql.nodes then Q (ql.prev p) ql else E .freed := by
  unfold prevOf
  rw [wp_bind, wp_nodeAt, wp_bind, wp_get, wp_pure]

/-- The first and the last `i` nodes are raw. -/
def OpenTo (i : Nat) (ql : QuickList) : Prop :=
  ∀ j p, ql.nodes[j]? = some p → j < i ∨ ql.nodes.length ≤ j + i → ql.Raw p

/-- A node is not among the first and the last `i` ones. -/
def Inner (i : Nat) (ql : QuickList) (node : Option Nat) : Prop :=
  ∀ j, j < ql.nodes.length → j < i ∨ ql.nodes.length ≤ j + i → ql.nodes[j]? ≠ node

/-- What the loop of the sweep leaves of a list, after `n` steps in all. -/
def SweptLoop (node : Option Nat) (n : Nat) (ql ql' : QuickList) :
    Option (Option Nat × Option Nat × Bool) → Prop
  | none => ql'.nodes.length + 1 = 2 * n ∧ ∀ p ∈ ql'.nodes, ql'.Raw p
  | some (forward, reverse, inDepth) =>
      2 * n ≤ ql'.nodes.length ∧ forward = ql'.nodes[n]? ∧
        reverse = ql'.nodes[ql'.nodes.length - n - 1]? ∧ OpenTo n ql' ∧
        (inDepth = false ↔ Inner n ql' node) ∧
        ∀ j p, ql'.nodes[j]? = some p → n ≤ j → j + n < ql'.nodes.length →
          ql'.node p = ql.node p

theorem wp_quicklistDecompressNode {Q : Unit → QuickList → Prop} (hp : p ∈ ql.nodes)
    (hready : Ready pf ql)
    (h : ∀ ql', Opened pf p ql ql' → ql'.Raw p → (∀ q, ql.Raw q → ql'.Raw q) → Q () ql') :
    wp X E (quicklistDecompressNode pf (some p)) Q ql := by
  have hsound := hready.sound p hp
  exact wp_decompressNode (fun hno => (hno hp).elim) fun ql' _ hopen =>
    h ql' hopen (hopen.raw hsound) (fun q => hopen.keeps hsound)

/-- One more node from each end is raw. -/
theorem OpenTo.succ {i : Nat} {f r : Nat} (h : OpenTo i ql) (hf : ql.nodes[i]? = some f)
    (hr : ql.nodes[ql.nodes.length - i - 1]? = some r) (hfraw : ql.Raw f) (hrraw : ql.Raw r) :
    OpenTo (i + 1) ql := by
  intro j p hj hin
  have hlt := (List.getElem?_eq_some_iff.mp hj).1
  by_cases hjf : j = i
  · rw [hjf, hf] at hj
    exact Option.some.inj hj ▸ hfraw
  · by_cases hjr : j = ql.nodes.length - i - 1
    · rw [hjr, hr] at hj
      exact Option.some.inj hj ▸ hrraw
    · exact h j p hj (by omega)

theorem Inner.succ_iff {i : Nat} {node : Option Nat} (hi : i < ql.nodes.length) :
    Inner (i + 1) ql node ↔ Inner i ql node ∧
      ¬ (ql.nodes[i]? = node ∨ ql.nodes[ql.nodes.length - i - 1]? = node) := by
  constructor
  · intro h
    refine ⟨fun j hlt hin => h j hlt (by omega), ?_⟩
    rw [not_or]
    exact ⟨h i hi (by omega), h _ (by omega) (by omega)⟩
  · rintro ⟨h, hends⟩ j hlt hin
    obtain ⟨hf, hr⟩ := not_or.mp hends
    by_cases hjf : j = i
    · rwa [hjf]
    · by_cases hjr : j = ql.nodes.length - i - 1
      · rwa [hjr]
      · exact h j hlt (by omega)

theorem wp_compressLoop {node : Option Nat}
    {Q : Option (Option Nat × Option Nat × Bool) → QuickList → Prop} :
    ∀ (k i : Nat) (inDepth : Bool) (ql : QuickList), Ready pf ql →
      2 * (i + k) ≤ ql.nodes.length + 1 → OpenTo i ql → (inDepth = false ↔ Inner i ql node) →
      (k = 0 → 2 * i ≤ ql.nodes.length) →
      (∀ r ql', Recoded pf ql ql' → SweptLoop node (i + k) ql ql' r → Q r ql') →
      wp X E (compressLoop pf node k ql.nodes[i]? ql.nodes[ql.nodes.length - i - 1]? inDepth)
        Q ql := by
  intro k
  induction k with
  | zero =>
      intro i inDepth ql hready _ hopen hinner hshort h
      unfold compressLoop
      rw [wp_pure]
      exact h _ ql (.refl ql) ⟨hshort rfl, rfl, rfl, hopen, hinner, fun _ _ _ _ _ => rfl⟩
  | succ k ih =>
      intro i inDepth ql hready hlen hopen hinner _ h
      have hlt : i < ql.nodes.length := by omega
      obtain ⟨f, hf⟩ : ∃ f, ql.nodes[i]? = some f := ⟨_, List.getElem?_eq_getElem hlt⟩
      obtain ⟨r, hr⟩ : ∃ r, ql.nodes[ql.nodes.length - i - 1]? = some r :=
        ⟨_, List.getElem?_eq_getElem (by omega)⟩
      rw [hf, hr]
      unfold compressLoop
      rw [wp_bind]
      refine wp_quicklistDecompressNode (List.mem_of_getElem? hf) hready
        fun ql₁ hopen₁ hfraw hkeep₁ => ?_
      have hrec₁ := hopen₁.toRecoded
      rw [wp_bind]
      refine wp_quicklistDecompressNode (hrec₁.nodes ▸ List.mem_of_getElem? hr)
        (hready.recoded hrec₁) fun ql₂ hopen₂ hrraw hkeep₂ => ?_
      -- the list now, with one more node open at each end
      have hrec := hrec₁.trans hopen₂.toRecoded
      have hnodes := hrec.nodes
      have hready₂ := hready.recoded hrec
      have hkept : OpenTo i ql₂ := fun j p hj hin =>
        hkeep₂ p (hkeep₁ p (hopen j p (hnodes ▸ hj) (hnodes ▸ hin)))
      have hmore : OpenTo (i + 1) ql₂ :=
        hkept.succ (hnodes ▸ hf) (hnodes ▸ hr) (hkeep₂ f hfraw) hrraw
      have hinner₂ : (inDepth || decide (some f = node ∨ some r = node)) = false ↔
          Inner (i + 1) ql₂ node := by
        have hsame : Inner (i + 1) ql₂ node ↔ Inner (i + 1) ql node := by
          unfold Inner
          rw [hnodes]
        rw [Bool.or_eq_false_iff, decide_eq_false_iff_not, hsame, Inner.succ_iff hlt, hinner, hf, hr]
      rw [wp_ite, wp_pure]
      split
      · next heq =>
          -- the cursors meet in the middle
          have hij : i = ql.nodes.length - i - 1 :=
            (List.getElem?_inj hlt hready.nodup).mp (hf.trans (heq.trans hr.symm))
          refine h none ql₂ hrec ⟨by rw [hnodes]; omega, fun p hp => ?_⟩
          obtain ⟨j, hj, hjp⟩ := List.getElem_of_mem hp
          refine hmore j p (List.getElem?_eq_some_iff.mpr ⟨hj, hjp⟩) ?_
          rw [hnodes] at hj ⊢
          omega
      · next hne =>
          have hlast : ql.nodes.length - i - 1 ≠ i := by
            intro heq
            rw [heq, hf] at hr
            exact hne hr
          rw [wp_bind, wp_nextOf, if_pos (hnodes ▸ List.mem_of_getElem? hf),
            next_getElem? hready₂.nodup (hnodes ▸ hf), wp_bind, wp_prevOf,
            if_pos (hnodes ▸ List.mem_of_getElem? hr),
            prev_getElem? (i := ql₂.nodes.length - (i + 1) - 1) hready₂.nodup (by
              rw [hnodes, ← hr]
              congr 1
              omega)]
          refine ih (i + 1) (inDepth || decide (some f = node ∨ some r = node)) ql₂
            hready₂ (by rw [hnodes]; omega) hmore hinner₂ (by rw [hnodes]; omega)
            fun res ql₃ hrec₃ hswept => h res ql₃ (hrec.trans hrec₃) ?_
          rw [Nat.add_assoc, Nat.add_comm 1 k] at hswept
          rcases res with _ | ⟨forward, reverse, inDepth'⟩
          · exact hswept
          · obtain ⟨hmany, hfor, hrev, hopen₃, hinner₃, hsame⟩ := hswept
            refine ⟨hmany, hfor, hrev, hopen₃, hinner₃, fun j p hj hge hle => ?_⟩
            have hj' : ql.nodes[j]? = some p := by rw [← hnodes, ← hrec₃.nodes]; exact hj
            rw [hrec₃.nodes, hnodes] at hle
            have hpf : p ≠ f := by
              intro heq
              rw [heq, ← hf, List.getElem?_inj (by omega) hready.nodup] at hj'
              omega
            have hpr : p ≠ r := by
              intro heq
              rw [heq, ← hr, List.getElem?_inj (by omega) hready.nodup] at hj'
              omega
            rw [hsame j p hj hge (by rw [hrec₃.nodes, hnodes]; exact hle), hopen₂.other p hpr,
              hopen₁.other p hpf]

theorem wp_quicklistCompressNode {node : Option Nat} {Q : Unit → QuickList → Prop}
    (hnode : ∀ p, node = some p → p ∈ ql.nodes)
    (hmem : E .memory ∨ ∀ p ∈ ql.nodes, Measured pf (ql.node p))
    (h : ∀ ql', Recoded pf ql ql' → (∀ q, node ≠ some q → ql.Raw q → ql'.Raw q) → Q () ql') :
    wp X E (quicklistCompressNode pf node) Q ql := by
  rcases node with _ | p
  · exact h ql (.refl ql) fun _ _ hq => hq
  · have hp := hnode p rfl
    refine wp_compressNode (fun hno => (hno hp).elim) (hmem.imp_right fun hw _ => hw p hp)
      fun ql' _ hclosed => h ql' hclosed.toRecoded fun q hq hraw => ?_
    unfold QuickList.Raw
    rw [hclosed.other q fun heq => hq (heq ▸ rfl)]
    exact hraw

/-- Both ends are raw. -/
def OpenEnds (ql : QuickList) : Prop := ∀ p, ql.head = some p ∨ ql.tail = some p → ql.Raw p

/-- What the sweep does: nothing if there is no compression or the count is too small for it,
and otherwise it opens both ends, and all nodes if there are less than twice the depth. -/
def Swept (ql ql' : QuickList) : Prop :=
  ((ql.compress = 0 ∨ ql.len < ql.compress * 2) ∧ ql' = ql) ∨
    (ql.compress ≠ 0 ∧ ql.compress * 2 ≤ ql.len ∧ OpenEnds ql' ∧
      (ql.nodes.length < ql.compress * 2 → ∀ p ∈ ql.nodes, ql'.Raw p))

/-- The ends are among the nodes that the loop opens. -/
theorem OpenTo.ends {n : Nat} (h : OpenTo n ql) (hn : 0 < n) : OpenEnds ql := by
  intro p hp
  rcases hp with hp | hp
  · rw [head_eq] at hp
    exact h 0 p hp (.inl hn)
  · rw [tail_eq] at hp
    have hlt := (List.getElem?_eq_some_iff.mp hp).1
    exact h _ p hp (.inr (by omega))

/-- The end of a list is not a node further inside. -/
theorem end_ne (hnodup : ql.nodes.Nodup) {i : Nat} (hi : 0 < i) (hlast : i + 1 < ql.nodes.length)
    (hp : ql.head = some p ∨ ql.tail = some p) : ql.nodes[i]? ≠ some p := by
  intro heq
  rcases hp with hp | hp
  · rw [head_eq, ← heq, List.getElem?_inj (by omega) hnodup] at hp
    omega
  · rw [tail_eq, ← heq, List.getElem?_inj (by omega) hnodup] at hp
    omega

theorem wp_quicklistCompressTo {node : Option Nat} {Q : Unit → QuickList → Prop}
    (hready : Ready pf ql) (hnode : ∀ p, node = some p → p ∈ ql.nodes)
    (hlen : ql.len ≤ ql.nodes.length + 1)
    (hmem : E .memory ∨ ∀ p ∈ ql.nodes, Measured pf (ql.node p))
    (h : ∀ ql', Recoded pf ql ql' → Swept ql ql' → Q () ql') :
    wp X E (quicklistCompressTo pf node) Q ql := by
  unfold quicklistCompressTo
  rw [wp_bind, wp_get, wp_ite, wp_pure]
  split
  case isTrue hskip => exact h ql (.refl ql) (.inl ⟨hskip, rfl⟩)
  case isFalse hgo =>
    obtain ⟨hc, hl⟩ := not_or.mp hgo
    have hl := Nat.le_of_not_lt hl
    have hmem' : ∀ {ql'}, Recoded pf ql ql' →
        E .memory ∨ ∀ p ∈ ql'.nodes, Measured pf (ql'.node p) := fun hrec =>
      hmem.imp_right fun hw p hp => (hrec.node p).measured (hw p (hrec.nodes ▸ hp))
    rw [wp_bind, head_eq, tail_eq]
    refine wp_compressLoop ql.compress 0 false ql hready (by omega)
      (fun j p hj hin => absurd (List.getElem?_eq_some_iff.mp hj).1 (by omega))
      ⟨fun _ j hj hin => by omega, fun _ => rfl⟩ (fun hc0 => (hc hc0).elim)
      fun r ql₁ hrec₁ hswept => ?_
    rw [Nat.zero_add] at hswept
    have hnodes₁ := hrec₁.nodes
    rcases r with _ | ⟨forward, reverse, inDepth⟩
    · -- the cursors met: all nodes are raw
      refine h ql₁ hrec₁ (.inr ⟨hc, hl, fun p hp => hswept.2 p ?_, fun _ p hp =>
        hswept.2 p (hnodes₁ ▸ hp)⟩)
      exact hp.elim List.mem_of_head? List.mem_of_getLast?
    · obtain ⟨hmany, rfl, rfl, hopen, hinner, -⟩ := hswept
      have hends := hopen.ends (by omega)
      have hinner' : inDepth = false → ∀ p, ql₁.head = some p ∨ ql₁.tail = some p →
          node ≠ some p := by
        intro hd p hp heq
        rw [head_eq, tail_eq] at hp
        rcases hp with hp | hp
        · exact hinner.mp hd 0 (by omega) (.inl (by omega)) (hp.trans heq.symm)
        · exact hinner.mp hd _ (by omega) (.inr (by omega)) (hp.trans heq.symm)
      dsimp only
      rw [wp_bind]
      have hfirst : wp X E (if inDepth then pure () else quicklistCompressNode pf node)
          (fun _ ql₂ => Recoded pf ql ql₂ ∧ OpenEnds ql₂) ql₁ := by
        rw [wp_ite, wp_pure]
        split
        · exact ⟨hrec₁, hends⟩
        · next hd =>
            refine wp_quicklistCompressNode (fun p hp => hnodes₁ ▸ hnode p hp) (hmem' hrec₁)
              fun ql₂ hrec₂ hkeep => ⟨hrec₁.trans hrec₂, fun p hp => ?_⟩
            rw [hrec₂.head, hrec₂.tail] at hp
            exact hkeep p (hinner' (Bool.eq_false_of_not_eq_true hd) p hp) (hends p hp)
      refine wp_mono hfirst fun _ ql₂ hql₂ => ?_
      obtain ⟨hrec₂, hends₂⟩ := hql₂
      have hnodes₂ := hrec₂.nodes
      have hdone : ∀ ql', Recoded pf ql ql' → OpenEnds ql' → Q () ql' := fun ql' hrec hends =>
        h ql' hrec (.inr ⟨hc, hl, hends, fun hfew => by rw [hnodes₁] at hmany; omega⟩)
      rw [wp_ite, wp_pure]
      split
      case isFalse => exact hdone ql₂ hrec₂ hends₂
      case isTrue hdeep =>
        rw [hnodes₁] at hmany ⊢
        rw [wp_bind]
        refine wp_quicklistCompressNode (fun p hp => hnodes₂ ▸ List.mem_of_getElem? hp)
          (hmem' hrec₂) fun ql₃ hrec₃ hkeep₃ => ?_
        have hrec₃' := hrec₂.trans hrec₃
        refine wp_quicklistCompressNode
          (fun p hp => hrec₃'.nodes ▸ List.mem_of_getElem? hp) (hmem' hrec₃')
          fun ql₄ hrec₄ hkeep₄ => hdone ql₄ (hrec₃'.trans hrec₄) fun p hp => ?_
        rw [hrec₄.head, hrec₄.tail, hrec₃.head, hrec₃.tail] at hp
        have hnodup := (hready.recoded hrec₂).nodup
        have hinside : ∀ i, 0 < i → i + 1 < ql.nodes.length → ql.nodes[i]? ≠ some p := by
          intro i hi hlast
          rw [← hnodes₂] at hlast ⊢
          exact end_ne hnodup hi hlast hp
        exact hkeep₄ p (hinside _ (by omega) (by omega))
          (hkeep₃ p (hinside _ (by omega) (by omega)) (hends₂ p hp))

end Quicklist

end RedisCore
